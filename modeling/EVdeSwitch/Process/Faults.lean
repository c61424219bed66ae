import EVdeSwitch.Message.Framing
import EVdeSwitch.Process.Switch

/-!
# Faults — what ends the process

Every call of `printlog` at level `ERROR` that a run can reach is traced back to the event that
leads there: an outcome of a system call, a request, or a packet together with the tables it is
looked up in.  Those of the calls that guard against damage inside the process, an event of an
unknown type or a message of an unknown type, are never reached.
-/

namespace EVdeSwitch
namespace Process

open EVdeSwitch.ControlPlane
open EVdeSwitch.DataPlane
open EVdeSwitch.Io
open EVdeSwitch.Lib
open EVdeSwitch.Message
open EVdeSwitch.Utils

/-! ## The control pipe -/

/-- The bytes of the message that tells the data plane of a descriptor. -/
def portAddBytes (data_fd : Int) : List UInt8 :=
  headerBytes .MSG_PORT_ADD 4 ++ wordBytes 4 (BitVec.ofInt 32 data_fd).toNat

/-- The descriptor in the message at the front of the pipe. -/
def frontFd (pipe : List UInt8) : Int :=
  (BitVec.ofNat 32 (bytesWord ((pipe.drop 8).take 4))).toInt

/-- The results of `add_port`: a descriptor, or -1. -/
def PortFd (data_fd : Int) : Prop :=
  -1 ≤ data_fd ∧ data_fd < 2 ^ 31

namespace PortFd

variable {data_fd : Int}

theorem toInt_ofInt (h : PortFd data_fd) : (BitVec.ofInt 32 data_fd).toInt = data_fd := by
  rcases h with ⟨hlow, hhigh⟩
  rw [BitVec.toInt_ofInt]
  exact Int.bmod_eq_of_le (by omega) (by omega)

theorem frontFd_eq (h : PortFd data_fd) (rest : List UInt8) :
    frontFd (portAddBytes data_fd ++ rest) = data_fd := by
  have hheader : (headerBytes .MSG_PORT_ADD 4).length = 8 := length_headerBytes _ _
  have hword : (wordBytes 4 (BitVec.ofInt 32 data_fd).toNat).length = 4 := length_wordBytes _ _
  have hdrop : (portAddBytes data_fd ++ rest).drop 8 =
      wordBytes 4 (BitVec.ofInt 32 data_fd).toNat ++ rest := by
    rw [portAddBytes, List.append_assoc]
    exact List.drop_left' hheader
  have hlt : (BitVec.ofInt 32 data_fd).toNat < 256 ^ 4 := (BitVec.ofInt 32 data_fd).isLt
  rw [frontFd, hdrop, List.take_left' hword, bytesWord_wordBytes_of_lt hlt, BitVec.ofNat_toNat,
    BitVec.setWidth_eq, h.toInt_ofInt]

/-- The message at the front of the pipe can be told from the bytes. -/
theorem portAddBytes_append_inj {data_fd' : Int} (h : PortFd data_fd) (h' : PortFd data_fd')
    {rest rest' : List UInt8} (heq : portAddBytes data_fd ++ rest = portAddBytes data_fd' ++ rest') :
    data_fd = data_fd' ∧ rest = rest' := by
  have hlength : (portAddBytes data_fd).length = (portAddBytes data_fd').length := by
    simp [portAddBytes, length_headerBytes, length_wordBytes]
  refine ⟨?_, (List.append_inj heq hlength).2⟩
  calc
    data_fd = frontFd (portAddBytes data_fd ++ rest) := (h.frontFd_eq rest).symm
    _ = frontFd (portAddBytes data_fd' ++ rest') := by rw [heq]
    _ = data_fd' := h'.frontFd_eq rest'

theorem of_fd (fd : Fd) : PortFd fd.toInt := by
  have hnonneg := fd.toInt_nonneg
  have hlt := fd.lt
  refine ⟨by omega, ?_⟩
  rw [Fd.toInt]
  omega

/-- What a call of `handle_ctl_message` does with the message. -/
theorem handleCtlMessage_eq (h : PortFd data_fd) (rest : List UInt8) {env : CtlEnv}
    (hread : env.readFails = false) :
    handleCtlMessage env (portAddBytes data_fd ++ rest) =
      some
        { msg_type := 2
          len := 4
          rest := rest
          result :=
            if data_fd < 0 then (printlog .ERROR "read() failed: %s").map fun _ => none
            else addPacketFd data_fd env.epollFails } := by
  have hheader := handleCtlMessage_header .MSG_PORT_ADD (show 4 < 2 ^ 32 by decide)
    (wordBytes 4 (BitVec.ofInt 32 data_fd).toNat ++ rest) hread
  have hword := handlePortAdd_word env 2 (BitVec.ofInt 32 data_fd) rest
  rw [h.toInt_ofInt] at hword
  rw [portAddBytes, List.append_assoc, hheader, if_pos rfl]
  exact hword

end PortFd

/-- A failing `read` ends the process, whatever is in the pipe. -/
theorem exits_of_readFails {env : CtlEnv} {pipe : List UInt8} {call : CtlCall}
    (hread : env.readFails = true) (h : handleCtlMessage env pipe = some call) :
    Exits call.result := by
  cases hpipe : readPipe pipe 8 with
  | none => simp [handleCtlMessage, hpipe] at h
  | some result =>
      simp only [handleCtlMessage, hpipe, hread, Option.bind_some, if_true,
        Option.some.injEq] at h
      rw [← h]
      simp

/-! ## What ends the process -/

namespace State

/-- An event of the control plane: a new connection that cannot be set up, or a request. -/
def CtlEventFails (s : State) (word : BitVec 64) (env : CtlEventEnv) : Prop :=
  if (HI word).toInt = CtlReqType.CTL_LISTEN.toNat then AcceptFails env.accept
  else RequestFails s.manager env.request

/-- An event of the data plane: a message that cannot be read, that carries the -1 of a failed
`add_port`, or whose descriptor cannot be registered. -/
def DataEventFails (s : State) (word : BitVec 64) (env : DataEventEnv) : Prop :=
  (HI word).toInt = DataReqType.CTL_MESSAGE.toNat ∧
    (env.ctl.readFails = true ∨ frontFd s.ctl_pipe < 0 ∨ env.ctl.epollFails = true)

/-- The steps that end in `exit(1)`. -/
def Fatal (s : State) : SwitchAction → Prop
  | .ctlEvent word env => s.CtlEventFails word env
  | .bind env => env.unlinkFails = true ∨ env.bindFails = true ∨ env.write = .failed
  | .notify headerFails dataFails => headerFails = true ∨ dataFails = true
  | .dataEvent word env => s.DataEventFails word env
  | .process thread_idx now sendFails =>
      ∃ fd b, (s.engine.pool.workers thread_idx).pc = .processing fd (some b) ∧
        ProcessFails s.engine.fdt s.engine.endpoints s.engine.mt fd b.p now sendFails
  | .push | .write | .read _ | .pop _ => False

/-- The steps that end in a signal: the client is gone when `add_port` writes to it. -/
def Killed : SwitchAction → Prop
  | .bind env => env.unlinkFails = false ∧ env.bindFails = false ∧ env.write = .sigpipe
  | _ => False

/-! ## The invariant -/

/-- Only words of known types are registered, `add_port` has ports to give away, and the pipe
holds whole messages. -/
structure Inv (s : State) : Prop where
  ctl_fds : ∀ word ∈ s.ctl_fds, ∃ r : Registration CtlReqType, r.type ≠ .DATA ∧
    word = CtlReqType.data r
  data_fds : ∀ word ∈ s.data_fds, ∃ r : Registration DataReqType, word = DataReqType.data r
  manager : s.manager.Inv
  ctl_pipe : ∃ fds : List Int, (∀ fd ∈ fds, PortFd fd) ∧ s.ctl_pipe = fds.flatMap portAddBytes
  sending : ∀ fd_data, s.ctl = .sending fd_data → PortFd fd_data

theorem inv_start (c : Config) : Inv (start c) where
  ctl_fds := by
    intro word hword
    exact ⟨⟨.CTL_LISTEN, c.connect_fd⟩, by simp, List.mem_singleton.1 hword⟩
  data_fds := by
    intro word hword
    exact ⟨⟨.CTL_MESSAGE, c.ctl_pipe⟩, List.mem_singleton.1 hword⟩
  manager := PortManager.inv_alloc _ _
  ctl_pipe := ⟨[], by simp, rfl⟩
  sending := by
    intro fd_data h
    cases h

/-- What is known of a step: the invariant is kept, and the process ends for the reasons given
above and for no other. -/
structure Sound (s : State) (a : SwitchAction) (r : Except Halt State) : Prop where
  inv : ∀ t, r = .ok t → t.Inv
  exits : Exits r ↔ s.Fatal a
  ended : (∃ halt, r = .error halt) ↔ s.Fatal a ∨ Killed a

namespace Sound

variable {s : State} {a : SwitchAction} {r : Except Halt State}

theorem of_ok {t : State} (ht : t.Inv) (hfatal : ¬ s.Fatal a) (hkilled : ¬ Killed a) :
    Sound s a (.ok t) where
  inv := by
    intro u hu
    cases hu
    exact ht
  exits := iff_of_false (not_exits_ok t) hfatal
  ended := iff_of_false (by simp) (not_or.2 ⟨hfatal, hkilled⟩)

theorem of_exits (hr : Exits r) (hfatal : s.Fatal a) : Sound s a r where
  inv := by
    intro t ht
    rw [ht] at hr
    exact absurd hr (not_exits_ok t)
  exits := iff_of_true hr hfatal
  ended := by
    rcases hr with ⟨message, hmessage⟩
    exact iff_of_true ⟨_, hmessage⟩ (Or.inl hfatal)

theorem of_crash (hfatal : ¬ s.Fatal a) (hkilled : Killed a) :
    Sound s a (.error .crash) where
  inv := by
    intro t ht
    cases ht
  exits := iff_of_false not_exits_crash hfatal
  ended := iff_of_true ⟨_, rfl⟩ (Or.inr hkilled)

end Sound

/-! ## One event of the control plane -/

/-- The loop ends the process for a handler that returns a negative result. -/
def checkResult (fmt : String) : Int × State → Except Halt State
  | (result, s) => if result < 0 then (printlog .ERROR fmt).map fun _ => s else .ok s

/-- A call whose result the loop checks. -/
theorem map_snd_checked (env : CtlEventEnv) (call : StateT State (Except Halt) Int)
    (fmt : String) (s : State) :
    Except.map Prod.snd
        ((do if (← call) < 0 then (ctlHandlers env).printlog .ERROR fmt :
          StateT State (Except Halt) Unit) s) =
      (call s).bind (checkResult fmt) := by
  cases hcall : call s with
  | error halt => simp [hcall, Bind.bind, StateT.bind, Except.bind, Except.map]
  | ok result =>
      by_cases hneg : result.1 < 0
      · simp [ctlHandlers, hcall, Bind.bind, StateT.bind, Except.bind, Except.map, checkResult,
          hneg]
      · simp [hcall, Bind.bind, StateT.bind, Except.bind, Except.map, checkResult, hneg]
        rfl

variable {c : Config} {s : State}

theorem ctlEvent_listen (s : State) (fd : Fd) (env : CtlEventEnv) :
    s.ctlEvent (CtlReqType.data ⟨.CTL_LISTEN, fd⟩) env =
      ((acceptNewCtlConn s.ctl_fds env.accept).map fun (result, ctl_fds) =>
        (result, { s with ctl_fds := ctl_fds })).bind
          (checkResult "Failed to accept new control connection on fd %d") := by
  have hround : ctlPlaneRound (ctlHandlers env) [CtlReqType.data ⟨.CTL_LISTEN, fd⟩] 0 =
      CtlReqType.handle (ctlHandlers env) ⟨.CTL_LISTEN, fd⟩ :=
    CtlReqType.dispatchWord_data _ _
  rw [ctlEvent, hround]
  exact map_snd_checked env _ _ s

theorem ctlEvent_wd (s : State) (fd : Fd) (env : CtlEventEnv) :
    s.ctlEvent (CtlReqType.data ⟨.CTL_WD, fd⟩) env =
      ((handleWdReq s.manager env.request).map (s.afterWdReq fd.toInt)).bind
        (checkResult "Failed to handle WD request on fd %d") := by
  have hround : ctlPlaneRound (ctlHandlers env) [CtlReqType.data ⟨.CTL_WD, fd⟩] 0 =
      CtlReqType.handle (ctlHandlers env) ⟨.CTL_WD, fd⟩ :=
    CtlReqType.dispatchWord_data _ _
  rw [ctlEvent, hround]
  exact map_snd_checked env _ _ s

theorem ctlEventFails_listen (fd : Fd) (env : CtlEventEnv) :
    s.CtlEventFails (CtlReqType.data ⟨.CTL_LISTEN, fd⟩) env ↔ AcceptFails env.accept := by
  have htype : (HI (CtlReqType.data ⟨.CTL_LISTEN, fd⟩)).toInt = CtlReqType.CTL_LISTEN.toNat :=
    HI_eventData (CtlReqType.toNat_lt _) fd
  rw [CtlEventFails, if_pos htype]

theorem ctlEventFails_wd (fd : Fd) (env : CtlEventEnv) :
    s.CtlEventFails (CtlReqType.data ⟨.CTL_WD, fd⟩) env ↔
      RequestFails s.manager env.request := by
  have htype : (HI (CtlReqType.data ⟨.CTL_WD, fd⟩)).toInt = CtlReqType.CTL_WD.toNat :=
    HI_eventData (CtlReqType.toNat_lt _) fd
  have hne : ¬ (HI (CtlReqType.data ⟨.CTL_WD, fd⟩)).toInt = CtlReqType.CTL_LISTEN.toNat := by
    rw [htype]
    decide
  rw [CtlEventFails, if_neg hne]

theorem Inv.sound_listen (hs : s.Inv) (fd : Fd) (env : CtlEventEnv) :
    Sound s (.ctlEvent (CtlReqType.data ⟨.CTL_LISTEN, fd⟩) env)
      (s.ctlEvent (CtlReqType.data ⟨.CTL_LISTEN, fd⟩) env) := by
  rw [ctlEvent_listen]
  rcases acceptNewCtlConn_cases s.ctl_fds env.accept with
    ⟨hfails, hexits | hnegative⟩ | ⟨hfails, client_fd, _, hok⟩
  · refine Sound.of_exits ?_ ((ctlEventFails_listen fd env).2 hfails)
    exact Exits.bind ((exits_map _ _).2 hexits) _
  · -- the function returns -1, and the loop ends the process
    refine Sound.of_exits ?_ ((ctlEventFails_listen fd env).2 hfails)
    rw [hnegative]
    simp [Except.map, Except.bind, checkResult]
  · have hfatal : ¬ s.Fatal (.ctlEvent (CtlReqType.data ⟨.CTL_LISTEN, fd⟩) env) :=
      fun h => hfails ((ctlEventFails_listen fd env).1 h)
    rw [hok]
    refine Sound.of_ok ?_ hfatal id
    -- the new word is that of a control connection
    refine { hs with ctl_fds := ?_ }
    intro word hword
    rcases List.mem_append.1 hword with hold | hnew
    · exact hs.ctl_fds word hold
    · exact ⟨⟨.CTL_WD, client_fd⟩, by simp, List.mem_singleton.1 hnew⟩

/-- The state after a request that does not end the process. -/
theorem Inv.afterWdReq (hs : s.Inv) (fd : Int) {outcome : WdReq} {m : PortManager}
    (hm : outcome.Sound m) :
    0 ≤ (s.afterWdReq fd (outcome, m)).1 ∧ (s.afterWdReq fd (outcome, m)).2.Inv := by
  cases outcome with
  | returned result =>
      have hresult : result = 0 := hm.returned result rfl
      exact ⟨le_of_eq hresult.symm, hs⟩
  | closed =>
      refine ⟨by simp [State.afterWdReq], { hs with ctl_fds := ?_ }⟩
      intro word hword
      exact hs.ctl_fds word (List.mem_filter.1 hword).1
  | binding ep =>
      refine ⟨le_refl 0, { hs with manager := hm.inv, sending := ?_ }⟩
      intro fd_data h
      cases h
  | sending fd_data =>
      refine ⟨le_refl 0, { hs with manager := hm.inv, sending := ?_ }⟩
      intro fd_data' h
      cases h
      -- the -1 of `add_port`
      rw [hm.sending fd_data rfl]
      exact ⟨le_refl _, by decide⟩

theorem Inv.sound_wd (hs : s.Inv) (fd : Fd) (env : CtlEventEnv) :
    Sound s (.ctlEvent (CtlReqType.data ⟨.CTL_WD, fd⟩) env)
      (s.ctlEvent (CtlReqType.data ⟨.CTL_WD, fd⟩) env) := by
  rw [ctlEvent_wd]
  rcases handleWdReq_cases hs.manager env.request with
    ⟨hfails, hexits⟩ | ⟨hfails, outcome, m, hok, hm⟩
  · refine Sound.of_exits ?_ ((ctlEventFails_wd fd env).2 hfails)
    exact Exits.bind ((exits_map _ _).2 hexits) _
  · have hfatal : ¬ s.Fatal (.ctlEvent (CtlReqType.data ⟨.CTL_WD, fd⟩) env) :=
      fun h => hfails ((ctlEventFails_wd fd env).1 h)
    rcases hs.afterWdReq fd.toInt hm with ⟨hnonneg, hinv⟩
    have hcheck : ((handleWdReq s.manager env.request).map (s.afterWdReq fd.toInt)).bind
        (checkResult "Failed to handle WD request on fd %d") =
          .ok (s.afterWdReq fd.toInt (outcome, m)).2 := by
      rw [hok]
      simp [Except.map, Except.bind, checkResult, not_lt.2 hnonneg]
    rw [hcheck]
    exact Sound.of_ok hinv hfatal id

theorem Inv.sound_ctlEvent (hs : s.Inv) {word : BitVec 64} (hword : word ∈ s.ctl_fds)
    (env : CtlEventEnv) : Sound s (.ctlEvent word env) (s.ctlEvent word env) := by
  rcases hs.ctl_fds word hword with ⟨⟨type, fd⟩, htype, rfl⟩
  cases type with
  | CTL_LISTEN => exact hs.sound_listen fd env
  | CTL_WD => exact hs.sound_wd fd env
  | DATA => exact absurd rfl htype

/-! ## The rest of `add_port` -/

theorem Inv.sound_bind (hs : s.Inv) (ep : Endpoint) (env : BindEnv) :
    Sound s (.bind env) (s.bind ep env) := by
  by_cases hfails : env.unlinkFails = true ∨ env.bindFails = true ∨ env.write = .failed
  · refine Sound.of_exits ?_ hfails
    rw [State.bind, exits_map, exits_addPortBind]
    exact hfails
  · simp only [not_or, Bool.not_eq_true] at hfails
    rcases hfails with ⟨hunlink, hbind, hwrite⟩
    -- unlink and bind have succeeded, and the client is told
    cases hout : env.write with
    | failed => exact absurd hout hwrite
    | sigpipe =>
        have hcrash : s.bind ep env = .error .crash := by
          simp [State.bind, addPortBind, hunlink, hbind, hout, Except.map]
        rw [hcrash]
        exact Sound.of_crash (by simp [Fatal, hunlink, hbind, hout]) ⟨hunlink, hbind, hout⟩
    | written =>
        have hok : s.bind ep env = .ok
            { s with
              engine := { s.engine with
                fdt := (fdTableInsert s.engine.fdt ep.fd_data ep env.reallocated).2 }
              ctl := .sending ep.fd_data.toInt } := by
          simp [State.bind, addPortBind, hunlink, hbind, hout, Except.map]
        rw [hok]
        refine Sound.of_ok ?_ (by simp [Fatal, hunlink, hbind, hout]) (by simp [Killed, hout])
        -- what is about to be sent is a descriptor
        refine { hs with sending := ?_ }
        intro fd_data h
        cases h
        exact PortFd.of_fd ep.fd_data

theorem Inv.sound_notify (hs : s.Inv) {fd_data : Int} (hctl : s.ctl = .sending fd_data)
    (headerFails dataFails : Bool) :
    Sound s (.notify headerFails dataFails) (s.notify fd_data headerFails dataFails) := by
  by_cases hfails : headerFails = true ∨ dataFails = true
  · refine Sound.of_exits ?_ hfails
    rw [State.notify, exits_map, exits_sendCtlMessage]
    exact hfails
  · simp only [not_or, Bool.not_eq_true] at hfails
    rcases hfails with ⟨rfl, rfl⟩
    have hok : s.notify fd_data false false = .ok
        { s with
          ctl_pipe := s.ctl_pipe ++ portAddBytes fd_data
          ctl := .waiting } := by
      simp [State.notify, sendCtlMessage_ok, Except.map, portAddBytes]
    rw [hok]
    refine Sound.of_ok ?_ (by simp [Fatal]) id
    -- one more whole message at the end of the pipe
    rcases hs.ctl_pipe with ⟨fds, hfds, hpipe⟩
    refine { hs with ctl_pipe := ⟨fds ++ [fd_data], ?_, ?_⟩, sending := ?_ }
    · intro fd hfd
      rcases List.mem_append.1 hfd with hold | hnew
      · exact hfds fd hold
      · rw [List.mem_singleton.1 hnew]
        exact hs.sending fd_data hctl
    · simp [hpipe]
    · intro fd h
      cases h

/-! ## One event of the data plane -/

theorem dataEvent_ctlMessage (c : Config) (s : State) (fd : Fd) (env : DataEventEnv) :
    s.dataEvent c (DataReqType.data ⟨.CTL_MESSAGE, fd⟩) env =
      (handleCtlMessage env.ctl s.ctl_pipe).map fun call =>
        call.result.map fun data_fd => s.afterCtlMessage call.rest data_fd := by
  have hround : dataPlaneRound (dataHandlers c env) [DataReqType.data ⟨.CTL_MESSAGE, fd⟩] 0 =
      DataReqType.handle (dataHandlers c env) ⟨.CTL_MESSAGE, fd⟩ :=
    DataReqType.dataPlaneRound_eq _ _ [] 0
  rw [dataEvent, hround]
  cases hcall : handleCtlMessage env.ctl s.ctl_pipe with
  | none => simp [DataReqType.handle, dataHandlers, hcall]
  | some call =>
      cases hresult : call.result <;>
        simp [DataReqType.handle, dataHandlers, hcall, hresult, Except.map]

theorem dataEvent_packet (c : Config) (s : State) (fd : Fd) (env : DataEventEnv) :
    s.dataEvent c (DataReqType.data ⟨.PACKET, fd⟩) env =
      s.engineStep c (.recv fd env.stale env.frame) := by
  have hround : dataPlaneRound (dataHandlers c env) [DataReqType.data ⟨.PACKET, fd⟩] 0 =
      DataReqType.handle (dataHandlers c env) ⟨.PACKET, fd⟩ :=
    DataReqType.dataPlaneRound_eq _ _ [] 0
  rw [dataEvent, hround, engineStep]
  cases hstep : s.engine.step c.threads c.pipeSlots (.recv fd env.stale env.frame) <;>
    simp [DataReqType.handle, dataHandlers, Fd.ofInt_toInt, hstep, Except.map]

/-- The invariant does not look into the engine. -/
theorem Inv.setEngine (hs : s.Inv) (engine : Engine) : Inv { s with engine := engine } where
  ctl_fds := hs.ctl_fds
  data_fds := hs.data_fds
  manager :=
    { portc_pos := hs.manager.portc_pos
      down := hs.manager.down }
  ctl_pipe := hs.ctl_pipe
  sending := hs.sending

theorem Inv.sound_engineStep (hs : s.Inv) {a : SwitchAction} {b : EngineAction}
    {r : Except Halt State} (hfatal : ¬ s.Fatal a) (hkilled : ¬ Killed a)
    (h : s.engineStep c b = some r) : Sound s a r := by
  rcases Option.map_eq_some_iff.1 h with ⟨engine, _, rfl⟩
  exact Sound.of_ok (hs.setEngine engine) hfatal hkilled

/-- The state after a message of the control plane. -/
theorem Inv.afterCtlMessage (hs : s.Inv) {fds : List Int} (hfds : ∀ fd ∈ fds, PortFd fd)
    (data_fd : Option Int) : (s.afterCtlMessage (fds.flatMap portAddBytes) data_fd).Inv where
  ctl_fds := hs.ctl_fds
  data_fds := by
    intro word hword
    simp only [State.afterCtlMessage] at hword
    cases hfd : data_fd.bind Fd.ofInt with
    | none =>
        rw [hfd] at hword
        exact hs.data_fds word hword
    | some fd =>
        rw [hfd] at hword
        rcases List.mem_append.1 hword with hold | hnew
        · exact hs.data_fds word hold
        · exact ⟨⟨.PACKET, fd⟩, List.mem_singleton.1 hnew⟩
  manager := hs.manager
  ctl_pipe := ⟨fds, hfds, rfl⟩
  sending := hs.sending

theorem dataEventFails_ctlMessage (s : State) (fd : Fd) (env : DataEventEnv) :
    s.DataEventFails (DataReqType.data ⟨.CTL_MESSAGE, fd⟩) env ↔
      env.ctl.readFails = true ∨ frontFd s.ctl_pipe < 0 ∨ env.ctl.epollFails = true := by
  have htype : (HI (DataReqType.data ⟨.CTL_MESSAGE, fd⟩)).toInt = DataReqType.CTL_MESSAGE.toNat :=
    HI_eventData (DataReqType.toNat_lt _) fd
  rw [DataEventFails, and_iff_right htype]

theorem Inv.sound_ctlMessage (hs : s.Inv) (fd : Fd) {env : DataEventEnv} {r : Except Halt State}
    (h : s.dataEvent c (DataReqType.data ⟨.CTL_MESSAGE, fd⟩) env = some r) :
    Sound s (.dataEvent (DataReqType.data ⟨.CTL_MESSAGE, fd⟩) env) r := by
  rw [dataEvent_ctlMessage] at h
  rcases Option.map_eq_some_iff.1 h with ⟨call, hcall, rfl⟩
  have hfatal := dataEventFails_ctlMessage s fd env
  cases hread : env.ctl.readFails with
  | true =>
      refine Sound.of_exits ?_ (hfatal.2 (Or.inl hread))
      rw [exits_map]
      exact exits_of_readFails hread hcall
  | false =>
      rcases hs.ctl_pipe with ⟨fds, hfds, hpipe⟩
      cases fds with
      | nil =>
          -- the pipe is empty, and the call blocks
          rw [hpipe] at hcall
          simp [handleCtlMessage, readPipe] at hcall
      | cons data_fd fds =>
          have hdata_fd : PortFd data_fd := hfds data_fd List.mem_cons_self
          rw [List.flatMap_cons] at hpipe
          rw [hpipe, hdata_fd.handleCtlMessage_eq _ hread] at hcall
          cases hcall
          rw [hpipe, hdata_fd.frontFd_eq, hread] at hfatal
          by_cases hneg : data_fd < 0
          · -- the -1 of a call of `add_port` that gave up
            refine Sound.of_exits ?_ (hfatal.2 (Or.inr (Or.inl hneg)))
            simp [hneg]
          · cases hepoll : env.ctl.epollFails with
            | true =>
                refine Sound.of_exits ?_ (hfatal.2 (Or.inr (Or.inr hepoll)))
                simp [hneg, addPacketFd]
            | false =>
                have hok : addPacketFd data_fd false = .ok (some data_fd) := rfl
                simp only [if_neg hneg, hok, Except.map]
                refine Sound.of_ok ?_ ?_ id
                · exact hs.afterCtlMessage
                    (fun fd hfd => hfds fd (List.mem_cons_of_mem _ hfd)) (some data_fd)
                · intro h
                  rcases hfatal.1 h with hfalse | hlt | htrue
                  · cases hfalse
                  · exact hneg hlt
                  · rw [hepoll] at htrue
                    cases htrue

theorem Inv.sound_dataEvent (hs : s.Inv) {word : BitVec 64} (hword : word ∈ s.data_fds)
    {env : DataEventEnv} {r : Except Halt State} (h : s.dataEvent c word env = some r) :
    Sound s (.dataEvent word env) r := by
  rcases hs.data_fds word hword with ⟨⟨type, fd⟩, rfl⟩
  cases type with
  | CTL_MESSAGE => exact hs.sound_ctlMessage fd h
  | PACKET =>
      have htype : (HI (DataReqType.data ⟨.PACKET, fd⟩)).toInt = DataReqType.PACKET.toNat :=
        HI_eventData (DataReqType.toNat_lt _) fd
      have hfatal : ¬ s.DataEventFails (DataReqType.data ⟨.PACKET, fd⟩) env := by
        -- a packet is not a message of the control plane
        rintro ⟨hmessage, _⟩
        rw [htype] at hmessage
        exact absurd hmessage (by decide)
      rw [dataEvent_packet] at h
      exact hs.sound_engineStep hfatal id h

/-! ## All steps -/

theorem Inv.sound_process (hs : s.Inv) {i now : Nat} {sendFails : Bool} {r : Except Halt State}
    (h : s.step c (.process i now sendFails) = some r) :
    Sound s (.process i now sendFails) r := by
  rcases Option.map_eq_some_iff.1 h with ⟨result, hresult, rfl⟩
  rcases Engine.process_eq_some.1 hresult with ⟨fd, b, pool, hpc, _, rfl⟩
  have hfatal : s.Fatal (.process i now sendFails) ↔
      ProcessFails s.engine.fdt s.engine.endpoints s.engine.mt fd b.p now sendFails := by
    simp [Fatal, hpc]
  rcases processPacket_cases s.engine.fdt s.engine.endpoints s.engine.mt fd b.p now sendFails with
    ⟨hfails, hexits⟩ | ⟨hfails, result, hok⟩
  · refine Sound.of_exits ?_ (hfatal.2 hfails)
    rw [exits_map, exits_map]
    exact hexits
  · rw [hok]
    exact Sound.of_ok (hs.setEngine _) (fun h => hfails (hfatal.1 h)) id

theorem Inv.step (hs : s.Inv) {a : SwitchAction} {r : Except Halt State}
    (h : s.step c a = some r) : Sound s a r := by
  cases a with
  | ctlEvent word env =>
      simp only [State.step, Option.ite_none_right_eq_some, Option.some.injEq] at h
      rcases h with ⟨⟨_, hword⟩, rfl⟩
      exact hs.sound_ctlEvent hword env
  | bind env =>
      cases hctl : s.ctl with
      | binding ep =>
          simp only [State.step, hctl, Option.some.injEq] at h
          rw [← h]
          exact hs.sound_bind ep env
      | _ => simp [State.step, hctl] at h
  | notify headerFails dataFails =>
      cases hctl : s.ctl with
      | sending fd_data =>
          simp only [State.step, hctl, Option.some.injEq] at h
          rw [← h]
          exact hs.sound_notify hctl headerFails dataFails
      | _ => simp [State.step, hctl] at h
  | dataEvent word env =>
      simp only [State.step, Option.ite_none_right_eq_some] at h
      rcases h with ⟨⟨_, hword⟩, h⟩
      exact hs.sound_dataEvent hword h
  | process i now sendFails => exact hs.sound_process h
  | _ => exact hs.sound_engineStep id id h

end State

end Process
end EVdeSwitch
