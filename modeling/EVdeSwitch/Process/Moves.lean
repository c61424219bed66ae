import EVdeSwitch.Process.Faults

/-!
# Moves — what a step changes

A step that does not end the process is one of ten moves: five are an event of the control plane,
two the rest of a request, two an event of the data plane, and the last is a step of the engine.
Each is given with the state it leads to, so that an invariant of the process is shown by cases.
-/

namespace EVdeSwitch
namespace Process

open EVdeSwitch.ControlPlane
open EVdeSwitch.DataPlane
open EVdeSwitch.Io
open EVdeSwitch.Message
open EVdeSwitch.Utils

/-- The step of the engine that a step of the pool or of a worker is. -/
def SwitchAction.engineAction : SwitchAction → Option EngineAction
  | .push => some .push
  | .write => some .write
  | .read thread_idx => some (.read thread_idx)
  | .pop thread_idx => some (.pop thread_idx)
  | .process thread_idx now sendFails => some (.process thread_idx now sendFails)
  | .ctlEvent _ _ | .bind _ | .notify _ _ | .dataEvent _ _ => none

namespace State

inductive Moves (c : Config) (s : State) : SwitchAction → State → Prop
  | accepted (fd client_fd : Fd) {env : CtlEventEnv} : env.accept.client = some client_fd →
      Moves c s (.ctlEvent (CtlReqType.data ⟨.CTL_LISTEN, fd⟩) env)
        { s with ctl_fds := s.ctl_fds ++ [CtlReqType.data ⟨.CTL_WD, client_fd⟩] }
  | ignored (fd : Fd) {env : CtlEventEnv} : ¬ Eof env.request → ¬ AsksForPort env.request →
      Moves c s (.ctlEvent (CtlReqType.data ⟨.CTL_WD, fd⟩) env) s
  | closed (fd : Fd) {env : CtlEventEnv} : Eof env.request →
      Moves c s (.ctlEvent (CtlReqType.data ⟨.CTL_WD, fd⟩) env)
        { s with ctl_fds := s.ctl_fds.filter fun word => (LO word).toInt ≠ fd.toInt }
  | refused (fd : Fd) {env : CtlEventEnv} : AsksForPort env.request →
      env.request.opening.fcntlFails = true →
      Moves c s (.ctlEvent (CtlReqType.data ⟨.CTL_WD, fd⟩) env) { s with ctl := .sending (-1) }
  | opened (fd fd_data : Fd) {env : CtlEventEnv} : AsksForPort env.request →
      env.request.opening.fcntlFails = false → env.request.opening.socket = some fd_data →
      Moves c s (.ctlEvent (CtlReqType.data ⟨.CTL_WD, fd⟩) env)
        { s.setManager (s.manager.opened fd_data) with ctl := .binding ⟨s.portc, fd_data⟩ }
  | bound (ep : Endpoint) {env : BindEnv} : s.ctl = .binding ep →
      Moves c s (.bind env)
        { s with
          engine := { s.engine with
            fdt := (fdTableInsert s.engine.fdt ep.fd_data ep env.reallocated).2 }
          ctl := .sending ep.fd_data.toInt }
  | notified (fd_data : Int) : s.ctl = .sending fd_data →
      Moves c s (.notify false false)
        { s with
          ctl_pipe := s.ctl_pipe ++ portAddBytes fd_data
          ctl := .waiting }
  | delivered (fd data_fd : Fd) (rest : List UInt8) {env : DataEventEnv} :
      s.ctl_pipe = portAddBytes data_fd.toInt ++ rest →
      Moves c s (.dataEvent (DataReqType.data ⟨.CTL_MESSAGE, fd⟩) env)
        { s with
          ctl_pipe := rest
          data_fds := s.data_fds ++ [DataReqType.data ⟨.PACKET, data_fd⟩] }
  | received (fd : Fd) {env : DataEventEnv} (engine : Engine) :
      s.engine.step c.threads c.pipeSlots (.recv fd env.stale env.frame) = some engine →
      Moves c s (.dataEvent (DataReqType.data ⟨.PACKET, fd⟩) env) { s with engine := engine }
  | worked {a : SwitchAction} {b : EngineAction} (engine : Engine) : a.engineAction = some b →
      s.engine.step c.threads c.pipeSlots b = some engine →
      Moves c s a { s with engine := engine }

variable {c : Config} {s t : State}

/-! ## Events -/

/-- What the loop of the control plane goes on with. -/
theorem bind_checkResult_ok {fmt : String} {r : Except Halt (Int × State)}
    (h : r.bind (checkResult fmt) = .ok t) : ∃ result, r = .ok (result, t) := by
  cases r with
  | error halt => cases h
  | ok x =>
      rcases x with ⟨result, u⟩
      -- a negative result ends the process
      by_cases hneg : result < 0
      · simp [Except.bind, checkResult, hneg, Except.map] at h
      · simp only [Except.bind, checkResult, if_neg hneg, Except.ok.injEq] at h
        exact ⟨result, by rw [h]⟩

theorem moves_listen (fd : Fd) {env : CtlEventEnv}
    (h : s.ctlEvent (CtlReqType.data ⟨.CTL_LISTEN, fd⟩) env = .ok t) :
    Moves c s (.ctlEvent (CtlReqType.data ⟨.CTL_LISTEN, fd⟩) env) t := by
  rw [ctlEvent_listen] at h
  rcases acceptNewCtlConn_cases s.ctl_fds env.accept with
    ⟨_, ⟨message, hexit⟩ | hnegative⟩ | ⟨_, client_fd, hclient, hok⟩
  · simp [hexit, Except.map, Except.bind] at h
  · simp [hnegative, Except.map, Except.bind, checkResult] at h
  · simp only [hok, Except.map, Except.bind, checkResult, lt_irrefl, if_false,
      Except.ok.injEq] at h
    subst h
    exact .accepted fd client_fd hclient

theorem Inv.moves_wd (hs : s.Inv) (fd : Fd) {env : CtlEventEnv}
    (h : s.ctlEvent (CtlReqType.data ⟨.CTL_WD, fd⟩) env = .ok t) :
    Moves c s (.ctlEvent (CtlReqType.data ⟨.CTL_WD, fd⟩) env) t := by
  rw [ctlEvent_wd] at h
  rcases bind_checkResult_ok h with ⟨result, hresult⟩
  rcases map_eq_ok.1 hresult with ⟨⟨outcome, m⟩, hcall, hafter⟩
  have ht : (s.afterWdReq fd.toInt (outcome, m)).2 = t := congrArg Prod.snd hafter
  subst ht
  cases answers_of_handleWdReq hs.manager hcall with
  | ignored heof hasks => exact .ignored fd heof hasks
  | closed heof => exact .closed fd heof
  | refused hasks hfcntl => exact .refused fd hasks hfcntl
  | opened fd_data hasks hfcntl hsocket => exact .opened fd fd_data hasks hfcntl hsocket

theorem Inv.moves_ctlEvent (hs : s.Inv) {word : BitVec 64} (hword : word ∈ s.ctl_fds)
    {env : CtlEventEnv} (h : s.ctlEvent word env = .ok t) :
    Moves c s (.ctlEvent word env) t := by
  rcases hs.ctl_fds word hword with ⟨⟨type, fd⟩, htype, rfl⟩
  cases type with
  | CTL_LISTEN => exact moves_listen fd h
  | CTL_WD => exact hs.moves_wd fd h
  | DATA => exact absurd rfl htype

theorem afterCtlMessage_some (s : State) (rest : List UInt8) (fd : Fd) :
    s.afterCtlMessage rest (some fd.toInt) =
      { s with
        ctl_pipe := rest
        data_fds := s.data_fds ++ [DataReqType.data ⟨.PACKET, fd⟩] } := by
  rw [afterCtlMessage, Option.bind_some, Fd.ofInt_toInt]
  rfl

theorem Inv.moves_ctlMessage (hs : s.Inv) (fd : Fd) {env : DataEventEnv}
    (h : s.dataEvent c (DataReqType.data ⟨.CTL_MESSAGE, fd⟩) env = some (.ok t)) :
    Moves c s (.dataEvent (DataReqType.data ⟨.CTL_MESSAGE, fd⟩) env) t := by
  rw [dataEvent_ctlMessage] at h
  rcases Option.map_eq_some_iff.1 h with ⟨call, hcall, hresult⟩
  rcases map_eq_ok.1 hresult with ⟨added, hadded, rfl⟩
  have hread : env.ctl.readFails = false := by
    cases hfails : env.ctl.readFails with
    | false => rfl
    | true =>
        have hexit := exits_of_readFails hfails hcall
        rw [hadded] at hexit
        exact absurd hexit (not_exits_ok added)
  rcases hs.ctl_pipe with ⟨fds, hfds, hpipe⟩
  cases fds with
  | nil =>
      -- the pipe is empty, and the call blocks
      simp [hpipe, handleCtlMessage, readPipe] at hcall
  | cons data_fd fds =>
      have hdata_fd : PortFd data_fd := hfds data_fd List.mem_cons_self
      rw [List.flatMap_cons] at hpipe
      rw [hpipe, hdata_fd.handleCtlMessage_eq _ hread] at hcall
      cases hcall
      by_cases hneg : data_fd < 0
      · simp [hneg, Except.map] at hadded
      · simp only [if_neg hneg] at hadded
        have hdescriptor := addPacketFd_eq_ok hadded
        subst hdescriptor
        -- what is added is a descriptor
        have hlt := hdata_fd.2
        rcases Fd.exists_ofInt (not_lt.1 hneg) (by omega) with ⟨added, _, rfl⟩
        rw [afterCtlMessage_some]
        exact .delivered fd added _ hpipe

theorem Inv.moves_dataEvent (hs : s.Inv) {word : BitVec 64} (hword : word ∈ s.data_fds)
    {env : DataEventEnv} (h : s.dataEvent c word env = some (.ok t)) :
    Moves c s (.dataEvent word env) t := by
  rcases hs.data_fds word hword with ⟨⟨type, fd⟩, rfl⟩
  cases type with
  | CTL_MESSAGE => exact hs.moves_ctlMessage fd h
  | PACKET =>
      rw [dataEvent_packet] at h
      rcases Option.map_eq_some_iff.1 h with ⟨engine, hengine, ht⟩
      cases ht
      exact .received fd engine hengine

/-! ## All steps -/

theorem moves_engineStep {a : SwitchAction} {b : EngineAction} (ha : a.engineAction = some b)
    (h : s.engineStep c b = some (.ok t)) : Moves c s a t := by
  rcases Option.map_eq_some_iff.1 h with ⟨engine, hengine, ht⟩
  cases ht
  exact .worked engine ha hengine

theorem moves_process {i now : Nat} {sendFails : Bool}
    (h : s.step c (.process i now sendFails) = some (.ok t)) :
    Moves c s (.process i now sendFails) t := by
  rcases Option.map_eq_some_iff.1 h with ⟨r, hr, ht⟩
  rcases map_eq_ok.1 ht with ⟨engine, rfl, rfl⟩
  refine .worked (b := .process i now sendFails) engine rfl ?_
  simp [Engine.step, hr, Except.toOption]

theorem Inv.moves (hs : s.Inv) {a : SwitchAction} (h : s.step c a = some (.ok t)) :
    Moves c s a t := by
  cases a with
  | ctlEvent word env =>
      simp only [State.step, Option.ite_none_right_eq_some, Option.some.injEq] at h
      exact hs.moves_ctlEvent h.1.2 h.2
  | bind env =>
      cases hctl : s.ctl with
      | binding ep =>
          simp only [State.step, hctl, Option.some.injEq, State.bind] at h
          rcases map_eq_ok.1 h with ⟨x, hx, rfl⟩
          rcases addPortBind_ok hx with rfl
          exact .bound ep hctl
      | _ => simp [State.step, hctl] at h
  | notify headerFails dataFails =>
      cases hctl : s.ctl with
      | sending fd_data =>
          simp only [State.step, hctl, Option.some.injEq, State.notify] at h
          rcases map_eq_ok.1 h with ⟨pipe, hpipe, rfl⟩
          rcases sendCtlMessage_eq_ok hpipe with ⟨rfl, rfl, rfl⟩
          exact .notified fd_data hctl
      | _ => simp [State.step, hctl] at h
  | dataEvent word env =>
      simp only [State.step, Option.ite_none_right_eq_some] at h
      exact hs.moves_dataEvent h.1.2 h.2
  | process i now sendFails => exact moves_process h
  | _ => exact moves_engineStep rfl h

/-- An event of the control plane is handled by its loop. -/
theorem waiting_of_ctlEvent {word : BitVec 64} {env : CtlEventEnv} {r : Except Halt State}
    (h : s.step c (.ctlEvent word env) = some r) : s.ctl = .waiting ∧ word ∈ s.ctl_fds := by
  simp only [State.step, Option.ite_none_right_eq_some] at h
  exact h.1

/-! ## What a move leaves alone -/

theorem engineAction_ne_control {a : SwitchAction} {b : EngineAction} (h : a.engineAction = some b)
    (fdt : FdTable) (endpoints : List Endpoint) : b ≠ .control fdt endpoints := by
  rintro rfl
  cases a <;> simp [SwitchAction.engineAction] at h

namespace Moves

variable {a : SwitchAction}

/-- Only a request for a port changes the list of endpoints and the slots. -/
theorem manager_cases (h : Moves c s a t) :
    t.manager = s.manager ∨
      ∃ fd env fd_data, a = .ctlEvent (CtlReqType.data ⟨.CTL_WD, fd⟩) env ∧
        AsksForPort env.request ∧ env.request.opening.socket = some fd_data ∧
        t = { s.setManager (s.manager.opened fd_data) with ctl := .binding ⟨s.portc, fd_data⟩ } := by
  cases h with
  | @opened fd fd_data env hasks hfcntl hsocket =>
      exact Or.inr ⟨fd, env, fd_data, rfl, hasks, hsocket, rfl⟩
  | received fd engine hstep =>
      have htables := Engine.step_tables (by simp) hstep
      exact Or.inl (by simp [manager, htables.2])
  | worked engine ha hstep =>
      have htables := Engine.step_tables (engineAction_ne_control ha) hstep
      exact Or.inl (by simp [manager, htables.2])
  | _ => exact Or.inl rfl

/-- Only the rest of `add_port` changes the table of descriptors. -/
theorem fdt_cases (h : Moves c s a t) :
    t.engine.fdt = s.engine.fdt ∨
      ∃ ep env, a = .bind env ∧ s.ctl = .binding ep ∧ t.ctl = .sending ep.fd_data.toInt ∧
        t.engine.fdt = (fdTableInsert s.engine.fdt ep.fd_data ep env.reallocated).2 := by
  cases h with
  | @bound ep env hctl => exact Or.inr ⟨ep, env, rfl, hctl, rfl, rfl⟩
  | received fd engine hstep => exact Or.inl (Engine.step_tables (by simp) hstep).1
  | worked engine ha hstep =>
      exact Or.inl (Engine.step_tables (engineAction_ne_control ha) hstep).1
  | _ => exact Or.inl rfl

/-- A message is written, or read, or neither. -/
theorem pipe_cases (h : Moves c s a t) :
    (t.ctl_pipe = s.ctl_pipe ∧ t.data_fds = s.data_fds) ∨
      (∃ fd_data, s.ctl = .sending fd_data ∧ t.ctl_pipe = s.ctl_pipe ++ portAddBytes fd_data ∧
        t.data_fds = s.data_fds) ∨
      ∃ data_fd : Fd, s.ctl_pipe = portAddBytes data_fd.toInt ++ t.ctl_pipe ∧
        t.data_fds = s.data_fds ++ [DataReqType.data ⟨.PACKET, data_fd⟩] := by
  cases h with
  | notified fd_data hctl => exact Or.inr (Or.inl ⟨fd_data, hctl, rfl, rfl⟩)
  | delivered fd data_fd rest hpipe => exact Or.inr (Or.inr ⟨data_fd, hpipe, rfl⟩)
  | _ => exact Or.inl ⟨rfl, rfl⟩

/-- The control plane goes on sending what it has from `add_port`. -/
theorem sending_cases (h : Moves c s a t) {fd_data : Int} (hctl : t.ctl = .sending fd_data) :
    s.ctl = .sending fd_data ∨ fd_data = -1 ∨
      ∃ ep env, a = .bind env ∧ fd_data = ep.fd_data.toInt ∧
        t.engine.fdt = (fdTableInsert s.engine.fdt ep.fd_data ep env.reallocated).2 := by
  cases h with
  | refused fd hasks hfcntl =>
      cases hctl
      exact Or.inr (Or.inl rfl)
  | @bound ep env hbinding =>
      cases hctl
      exact Or.inr (Or.inr ⟨ep, env, rfl, rfl, rfl⟩)
  | opened fd fd_data => cases hctl
  | notified fd_data => cases hctl
  | _ => exact Or.inl hctl

/-- An endpoint is bound once it has been made. -/
theorem binding_cases (h : Moves c s a t) {ep : Endpoint} (hctl : t.ctl = .binding ep) :
    s.ctl = .binding ep ∨ t.engine.endpoints = ep :: s.engine.endpoints := by
  cases h with
  | opened fd fd_data =>
      cases hctl
      exact Or.inr rfl
  | refused fd => cases hctl
  | bound ep' => cases hctl
  | notified fd_data => cases hctl
  | _ => exact Or.inl hctl

end Moves

end State

end Process
end EVdeSwitch
