import EVdeSwitch.ControlPlane.PortRequest
import EVdeSwitch.Process.Ports
import EVdeSwitch.Process.Survival

/-!
# RefusedPorts — what a request for a port leaves behind when it fails

`add_port` changes the counter, the slots and the list of endpoints on its way, takes nothing back
when a later call fails, and does not look at the result of `fd_table_insert`; `handle_wd_req` sends
on whatever it returns.  So a request leaves no trace only if it fails before all of that, or does
not fail at all.
-/

namespace EVdeSwitch
namespace Process

open EVdeSwitch.ControlPlane
open EVdeSwitch.Io
open EVdeSwitch.Lib
open EVdeSwitch.Message
open EVdeSwitch.Utils

/-! ## The property -/

/-- One new endpoint is known everywhere, and the data plane is told of it once. -/
structure Attached (tables after : Tables) (fd_data : Fd) : Prop where
  ports : after.ports = tables.ports.opened fd_data
  fdt : ∀ fd, fdTableLookup after.fdt fd =
    if fd = fd_data.toInt then some ⟨tables.ports.portc, fd_data⟩ else fdTableLookup tables.fdt fd
  ctl_pipe : after.ctl_pipe = tables.ctl_pipe ++ portAddBytes fd_data.toInt

/-- At its end, or when the process ends, the request has attached a port or done nothing. -/
def LeavesNoTrace (tables : Tables) (env : PortRequestEnv) : Prop :=
  (∃ fd_data after, (Tables.handleWdReq env).ends tables = (.ok 0, after) ∧
      Attached tables after fd_data) ∨
    ∃ result, (Tables.handleWdReq env).ends tables = (result, tables)

/-! ## The ways a request can end -/

/-- Nothing has been changed yet, and nothing is sent. -/
def RefusedEarly (env : PortRequestEnv) : Prop :=
  Tables.StopsEarly env.request.opening ∨
    (env.request.opening.fcntlFails = true ∧ env.headerFails = true)

/-- Every call succeeds, that of `fd_table_insert` included. -/
def Succeeds (tables : Tables) (env : PortRequestEnv) : Prop :=
  ∃ fd_data, env.request.opening.socket = some fd_data ∧
    env.request.opening.fcntlFails = false ∧ env.request.opening.connectFails = false ∧
    tables.Completes env ∧ HasRoom tables.fdt fd_data env.binding.reallocated ∧
    env.headerFails = false ∧ env.dataFails = false

/-- The tables after a request whose calls succeed, but perhaps for that of `fd_table_insert`. -/
def announced (tables : Tables) (fd_data : Fd) (reallocated : Bool) : Tables :=
  { tables.added fd_data reallocated with
    ctl_pipe := tables.ctl_pipe ++ portAddBytes fd_data.toInt }

inductive RequestEnds (tables : Tables) (env : PortRequestEnv) : Except Halt Int × Tables → Prop
  | refused (halt : Halt) : RefusedEarly env → RequestEnds tables env (.error halt, tables)
  /-- The -1 of `add_port` is sent on, or at least announced. -/
  | misled (result : Except Halt Int) (after : Tables) (rest : List UInt8) :
      ¬ RefusedEarly env → env.request.opening.fcntlFails = true → after.ports = tables.ports →
      after.ctl_pipe = tables.ctl_pipe ++ (headerBytes .MSG_PORT_ADD 4 ++ rest) →
      RequestEnds tables env (result, after)
  /-- The process ends with a number of a port used up. -/
  | broken (halt : Halt) (after : Tables) : ¬ RefusedEarly env → ¬ Succeeds tables env →
      after.ports.portc = tables.ports.portc + 1 → RequestEnds tables env (.error halt, after)
  | announced (fd_data : Fd) : ¬ RefusedEarly env → env.request.opening.socket = some fd_data →
      env.request.opening.fcntlFails = false →
      (HasRoom tables.fdt fd_data env.binding.reallocated → Succeeds tables env) →
      RequestEnds tables env (.ok 0, announced tables fd_data env.binding.reallocated)

section Requests

variable {tables : Tables} {env : PortRequestEnv}

theorem handleWdReq_of_asksForPort (h : AsksForPort env.request) :
    Tables.handleWdReq env = Tables.handleMagicReq 3 env := by
  rcases h with ⟨req, hreq, hne, hmagic, hversion⟩
  simp [Tables.handleWdReq, hreq, hne, hmagic, hversion]

theorem ends_handleMagicReq_ok {fd_data : Int} {after : Tables}
    (h : (Tables.addPort env).ends tables = (.ok fd_data, after)) :
    (Tables.handleMagicReq 3 env).ends tables =
      (((Tables.sendCtlMessage .MSG_PORT_ADD (wordBytes 4 (BitVec.ofInt 32 fd_data).toNat)
          env.headerFails env.dataFails).ends after).1.map fun _ => 0,
        ((Tables.sendCtlMessage .MSG_PORT_ADD (wordBytes 4 (BitVec.ofInt 32 fd_data).toNat)
          env.headerFails env.dataFails).ends after).2) := by
  simp [Tables.handleMagicReq, Stoppable.ends_bind, h]

theorem ends_handleMagicReq_error {halt : Halt} {after : Tables}
    (h : (Tables.addPort env).ends tables = (.error halt, after)) :
    (Tables.handleMagicReq 3 env).ends tables = (.error halt, after) := by
  simp [Tables.handleMagicReq, Stoppable.ends_bind, h]

theorem length_fdBytes (fd_data : Int) :
    (wordBytes 4 (BitVec.ofInt 32 fd_data).toNat).length = 4 :=
  length_wordBytes _ _

theorem requestEnds (hm : tables.ports.Inv) (h : AsksForPort env.request) :
    RequestEnds tables env ((Tables.handleWdReq env).ends tables) := by
  rw [handleWdReq_of_asksForPort h]
  have hadd := Tables.addPortEnds hm env
  generalize hends : (Tables.addPort env).ends tables = result at hadd
  cases hadd with
  | stopped halt hearly =>
      rw [ends_handleMagicReq_error hends]
      exact .refused halt (Or.inl hearly)
  | refused hearly hfcntl =>
      rw [ends_handleMagicReq_ok hends]
      rcases Tables.sendCtlMessage_cases tables .MSG_PORT_ADD
          (wordBytes 4 (BitVec.ofInt 32 (-1)).toNat) env.headerFails env.dataFails with
        ⟨hheader, halt, hsend⟩ | ⟨hheader, _, halt, hsend⟩ | ⟨hheader, _, hsend⟩
      · rw [hsend]
        exact .refused halt (Or.inr ⟨hfcntl, hheader⟩)
      · -- the header stays in the pipe
        rw [hsend]
        refine .misled _ _ [] (by simp [RefusedEarly, hearly, hheader]) hfcntl rfl ?_
        rw [length_fdBytes, List.append_nil]
      · rw [hsend]
        refine .misled _ _ (wordBytes 4 (BitVec.ofInt 32 (-1)).toNat)
          (by simp [RefusedEarly, hearly, hheader]) hfcntl rfl ?_
        rw [length_fdBytes]
  | broken halt after hearly hfcntl hcompletes hportc =>
      rw [ends_handleMagicReq_error hends]
      refine .broken halt after (by simp [RefusedEarly, hearly, hfcntl]) ?_ hportc
      rintro ⟨fd_data, _, _, _, hall, _⟩
      exact hcompletes hall
  | added fd_data hearly hfcntl hsocket hcompletes =>
      rw [ends_handleMagicReq_ok hends]
      have hrefused : ¬ RefusedEarly env := by simp [RefusedEarly, hearly, hfcntl]
      have hconnect : env.request.opening.connectFails = false := by
        simpa [Tables.StopsEarly, hsocket, hfcntl] using hearly
      rcases Tables.sendCtlMessage_cases (tables.added fd_data env.binding.reallocated)
          .MSG_PORT_ADD (wordBytes 4 (BitVec.ofInt 32 fd_data.toInt).toNat) env.headerFails
          env.dataFails with
        ⟨hheader, halt, hsend⟩ | ⟨_, hdata, halt, hsend⟩ | ⟨hheader, hdata, hsend⟩
      · rw [hsend]
        refine .broken halt _ hrefused ?_ rfl
        rintro ⟨_, _, _, _, _, _, hheader', _⟩
        exact absurd (hheader.symm.trans hheader') (by decide)
      · rw [hsend]
        refine .broken halt _ hrefused ?_ rfl
        rintro ⟨_, _, _, _, _, _, _, hdata'⟩
        exact absurd (hdata.symm.trans hdata') (by decide)
      · rw [hsend, length_fdBytes]
        exact .announced fd_data hrefused hsocket hfcntl fun hroom =>
          ⟨fd_data, hsocket, hfcntl, hconnect, hcompletes, hroom, hheader, hdata⟩

/-! ## When a request leaves no trace -/

theorem portc_opened_ne (m : PortManager) (fd_data : Fd) : (m.opened fd_data).portc ≠ m.portc :=
  Nat.succ_ne_self _

/-- The insertion that finds no room is the one that is missed. -/
theorem attached_announced_iff (tables : Tables) (fd_data : Fd) (reallocated : Bool) :
    Attached tables (announced tables fd_data reallocated) fd_data ↔
      HasRoom tables.fdt fd_data reallocated := by
  rcases fdTableInsert_cases tables.fdt fd_data ⟨tables.ports.portc, fd_data⟩ reallocated with
    ⟨hroom, hinsert⟩ | ⟨hroom, hinsert⟩
  · refine iff_of_true ?_ hroom
    exact
      { ports := rfl
        fdt := fun fd => by
          change fdTableLookup (fdTableInsert _ _ _ _).2 fd = _
          rw [hinsert, fdTableLookup_insert]
        ctl_pipe := rfl }
  · refine iff_of_false ?_ hroom
    intro hattached
    have hfound := hattached.fdt fd_data.toInt
    have hsame : (announced tables fd_data reallocated).fdt = tables.fdt := by
      change (fdTableInsert _ _ _ _).2 = _
      rw [hinsert]
    have hout : fd_data.toInt < 0 ∨ fd_data.toInt ≥ tables.fdt.capacity := by
      have hge : tables.fdt.capacity ≤ fd_data.val := not_lt.1 fun hlt => hroom (Or.inl hlt)
      exact Or.inr (by rw [Fd.toInt]; omega)
    rw [hsame, if_pos rfl, fdTableLookup, if_pos hout] at hfound
    cases hfound

theorem leavesNoTrace_iff (hm : tables.ports.Inv) (h : AsksForPort env.request) :
    LeavesNoTrace tables env ↔ RefusedEarly env ∨ Succeeds tables env := by
  have hends := requestEnds hm h
  rw [LeavesNoTrace]
  generalize (Tables.handleWdReq env).ends tables = result at hends ⊢
  cases hends with
  | refused halt hrefused => exact iff_of_true (Or.inr ⟨_, rfl⟩) (Or.inl hrefused)
  | misled result after rest hrefused hfcntl hports hpipe =>
      refine iff_of_false ?_ ?_
      · rintro (⟨fd_data, after', heq, hattached⟩ | ⟨result', heq⟩)
        · cases heq
          exact portc_opened_ne tables.ports fd_data (by rw [← hattached.ports, hports])
        · cases heq
          -- the header is in the pipe
          have hlength := congrArg List.length hpipe
          simp [length_headerBytes] at hlength
      · rintro (hrefused' | ⟨_, _, hfcntl', _⟩)
        · exact hrefused hrefused'
        · exact absurd (hfcntl.symm.trans hfcntl') (by decide)
  | broken halt after hrefused hsucceeds hportc =>
      refine iff_of_false ?_ (not_or.2 ⟨hrefused, hsucceeds⟩)
      rintro (⟨fd_data, after', heq, _⟩ | ⟨result', heq⟩)
      · cases heq
      · cases heq
        exact Nat.succ_ne_self _ hportc.symm
  | announced fd_data hrefused hsocket hfcntl hsucceeds =>
      have hroom : Succeeds tables env ↔ HasRoom tables.fdt fd_data env.binding.reallocated := by
        refine ⟨?_, hsucceeds⟩
        rintro ⟨fd_data', hsocket', _, _, _, hroom, _⟩
        rw [hsocket] at hsocket'
        cases hsocket'
        exact hroom
      rw [or_iff_right hrefused, hroom, ← attached_announced_iff]
      constructor
      · rintro (⟨fd_data', after, heq, hattached⟩ | ⟨result, heq⟩)
        · cases heq
          have hsame : fd_data' = fd_data := by
            have hslots := congrArg PortManager.endpoints hattached.ports
            simp only [announced, Tables.added, PortManager.opened, List.cons.injEq,
              Endpoint.mk.injEq, true_and, and_true] at hslots
            exact hslots.symm
          rw [hsame] at hattached
          exact hattached
        · have hportc := congrArg (fun x => x.2.ports.portc) heq
          exact absurd hportc (portc_opened_ne tables.ports fd_data)
      · intro hattached
        exact Or.inl ⟨fd_data, _, rfl, hattached⟩

/-- A call that returns leaves no trace unless `fcntl` has failed, or the table of descriptors has
had no room. -/
theorem leavesNoTrace_iff_of_returns (hm : tables.ports.Inv) (h : AsksForPort env.request)
    {result : Int} {after : Tables}
    (hreturns : (Tables.handleWdReq env).ends tables = (.ok result, after)) :
    LeavesNoTrace tables env ↔ env.request.opening.fcntlFails = false ∧
      ∀ fd_data, env.request.opening.socket = some fd_data →
        HasRoom tables.fdt fd_data env.binding.reallocated := by
  rw [leavesNoTrace_iff hm h]
  have hends := requestEnds hm h
  rw [hreturns] at hends
  cases hends with
  | misled _ _ rest hrefused hfcntl =>
      refine iff_of_false ?_ (by simp [hfcntl])
      rintro (hrefused' | ⟨_, _, hfcntl', _⟩)
      · exact hrefused hrefused'
      · exact absurd (hfcntl.symm.trans hfcntl') (by decide)
  | announced fd_data hrefused hsocket hfcntl hsucceeds =>
      rw [or_iff_right hrefused]
      constructor
      · rintro ⟨fd_data', hsocket', _, _, _, hroom, _⟩
        refine ⟨hfcntl, fun fd_data hsocket => ?_⟩
        rw [hsocket'] at hsocket
        cases hsocket
        exact hroom
      · rintro ⟨_, hroom⟩
        exact hsucceeds (hroom fd_data hsocket)

end Requests

/-! ## The requests of a running switch -/

namespace State

def tables (s : State) : Tables :=
  { ports := s.manager
    fdt := s.engine.fdt
    ctl_pipe := s.ctl_pipe }

def setTables (s : State) (tables : Tables) : State :=
  { s with
    engine := { s.engine with
      endpoints := tables.ports.endpoints
      fdt := tables.fdt }
    arena := tables.ports.arena
    portc := tables.ports.portc
    ctl_pipe := tables.ctl_pipe }

variable {c : Config} {s : State} {fd : Fd} {env : PortRequestEnv}

/-- The event of a request for a port. -/
theorem ctlEvent_request (h : AsksForPort env.request) (accept : AcceptEnv) :
    s.ctlEvent (CtlReqType.data ⟨.CTL_WD, fd⟩) { accept := accept, request := env.request } =
      (addPortOpen s.manager env.request.opening).map fun (ep, m) =>
        match ep with
        | some ep => { s.setManager m with ctl := .binding ep }
        | none => { s.setManager m with ctl := .sending (-1) } := by
  rw [ctlEvent_wd]
  rcases h with ⟨req, hreq, hne, hmagic, hversion⟩
  cases hopen : addPortOpen s.manager env.request.opening with
  | error halt =>
      simp [handleWdReq, handleMagicReq, hreq, hne, hmagic, hversion, hopen, Except.map,
        Except.bind]
  | ok result =>
      rcases result with ⟨ep, m⟩
      cases ep <;>
        simp [handleWdReq, handleMagicReq, hreq, hne, hmagic, hversion, hopen, Except.map,
          Except.bind, State.afterWdReq, checkResult]

/-- The steps by which the control plane goes on with a request after its event: the rest of
`add_port`, and the message. -/
def GoesOn (env : PortRequestEnv) (a : SwitchAction) : Prop :=
  a = .bind env.binding ∨ a = .notify env.headerFails env.dataFails

/-- The process after a request that `handle_wd_req` has answered. -/
def afterRequest (s : State) (env : PortRequestEnv) : Switch :=
  Switch.ofExcept (((Tables.handleWdReq env).forget s.tables).map fun (_, after) =>
    s.setTables after)

theorem step_notify_of_bind {x y : Switch} {binding : BindEnv} {headerFails dataFails : Bool}
    (h : (switch c).step x (.bind binding) = some y) :
    (switch c).step x (.notify headerFails dataFails) = none := by
  cases x with
  | ended halt => rfl
  | running s =>
      cases hctl : s.ctl with
      | waiting | sending fd_data => simp [switch, Switch.step, State.step, hctl] at h
      | binding ep => simp [switch, Switch.step, State.step, hctl]

/-- Whether the control plane is in `add_port` or before the message decides which step is next. -/
theorem oneAtATime_goesOn : (switch c).OneAtATime (GoesOn env) := by
  intro x a b y z ha hb hay hbz
  rcases ha with rfl | rfl <;> rcases hb with rfl | rfl
  · rfl
  · rw [step_notify_of_bind hay] at hbz
    cases hbz
  · rw [step_notify_of_bind hbz] at hay
    cases hay
  · rfl

/-- As long as `malloc` succeeds, the control plane's own steps lead through `add_port`. -/
theorem run_addPort (h : AsksForPort env.request) (hmalloc : env.mallocFails = false)
    (hctl : s.ctl = .waiting) (hword : CtlReqType.data ⟨.CTL_WD, fd⟩ ∈ s.ctl_fds)
    (accept : AcceptEnv) :
    ∃ acts, (∀ a ∈ acts, GoesOn env a) ∧
      (switch c).run (.running s) (.ctlEvent (CtlReqType.data ⟨.CTL_WD, fd⟩)
          { accept := accept, request := env.request } :: acts) =
        some (Switch.ofExcept (((Tables.addPort env).forget s.tables).map fun (fd_data, after) =>
          { s.setTables after with ctl := .sending fd_data })) := by
  have hevent : (switch c).step (.running s) (.ctlEvent (CtlReqType.data ⟨.CTL_WD, fd⟩)
      { accept := accept, request := env.request }) = some (Switch.ofExcept (s.ctlEvent
        (CtlReqType.data ⟨.CTL_WD, fd⟩) { accept := accept, request := env.request })) := by
    simp [switch, Switch.step, State.step, hctl, hword]
  have hports : s.tables.ports = s.manager := rfl
  rw [ctlEvent_request h] at hevent
  rw [Tables.forget_addPort s.tables hmalloc, hports]
  cases hopen : addPortOpen s.manager env.request.opening with
  | error halt =>
      rw [hopen] at hevent
      exact ⟨[], List.forall_mem_nil _,
        (switch c).run_cons_of_step hevent ((switch c).run_nil _)⟩
  | ok result =>
      rcases result with ⟨ep, m⟩
      rw [hopen] at hevent
      cases ep with
      | none =>
          exact ⟨[], List.forall_mem_nil _,
            (switch c).run_cons_of_step hevent ((switch c).run_nil _)⟩
      | some ep =>
          refine ⟨[.bind env.binding], List.forall_mem_singleton.2 (Or.inl rfl),
            (switch c).run_cons_of_step hevent
              (((switch c).run_singleton _ (.bind env.binding)).trans ?_)⟩
          change some (Switch.ofExcept (State.bind { s.setManager m with ctl := .binding ep } ep
            env.binding)) = some (Switch.ofExcept (Except.map _ (Except.map _ _)))
          have hfdt : s.tables.fdt = s.engine.fdt := rfl
          rw [hfdt]
          cases hbind : addPortBind ep env.binding s.engine.fdt <;>
            simp [State.bind, State.setManager, hbind, Except.map, State.setTables, State.tables]

/-- The message is the last step. -/
theorem notify_eq (t : State) (fd_data : Int) :
    t.notify fd_data env.headerFails env.dataFails =
      ((Tables.sendCtlMessage .MSG_PORT_ADD (wordBytes 4 (BitVec.ofInt 32 fd_data).toNat)
        env.headerFails env.dataFails).forget t.tables).map fun (_, after) =>
          { t.setTables after with ctl := .waiting } := by
  rw [Tables.forget_sendCtlMessage]
  simp only [State.notify]
  have hpipe : t.tables.ctl_pipe = t.ctl_pipe := rfl
  rw [hpipe]
  cases sendCtlMessage t.ctl_pipe .MSG_PORT_ADD (wordBytes 4 (BitVec.ofInt 32 fd_data).toNat)
    env.headerFails env.dataFails <;> rfl

theorem forget_request (h : AsksForPort env.request) (tables : Tables) :
    (Tables.handleWdReq env).forget tables =
      ((Tables.addPort env).forget tables).bind fun (fd_data, after) =>
        ((Tables.sendCtlMessage .MSG_PORT_ADD (wordBytes 4 (BitVec.ofInt 32 fd_data).toNat)
          env.headerFails env.dataFails).forget after).map fun r => ((0 : Int), r.2) := by
  rw [handleWdReq_of_asksForPort h]
  simp [Tables.handleMagicReq, Stoppable.forget_bind, Except.map, Except.bind]

/-- As long as `malloc` succeeds, a request is answered by the control plane's own steps. -/
theorem exists_run_handleWdReq (h : AsksForPort env.request) (hmalloc : env.mallocFails = false)
    (hctl : s.ctl = .waiting) (hword : CtlReqType.data ⟨.CTL_WD, fd⟩ ∈ s.ctl_fds)
    (accept : AcceptEnv) :
    ∃ acts, (∀ a ∈ acts, GoesOn env a) ∧
      (switch c).run (.running s) (.ctlEvent (CtlReqType.data ⟨.CTL_WD, fd⟩)
          { accept := accept, request := env.request } :: acts) =
        some (s.afterRequest env) := by
  rcases run_addPort (c := c) h hmalloc hctl hword accept with ⟨acts, hacts, hrun⟩
  rw [afterRequest, forget_request h]
  cases hadd : (Tables.addPort env).forget s.tables with
  | error halt =>
      rw [hadd] at hrun
      exact ⟨acts, hacts, hrun⟩
  | ok result =>
      rcases result with ⟨fd_data, after⟩
      rw [hadd] at hrun
      have hnotify : GoesOn env (.notify env.headerFails env.dataFails) := Or.inr rfl
      refine ⟨acts ++ [.notify env.headerFails env.dataFails],
        List.forall_mem_append.2 ⟨hacts, List.forall_mem_singleton.2 hnotify⟩,
        (switch c).run_append_eq_some.2 ⟨_, hrun, ?_⟩⟩
      rw [Machine.run_singleton]
      change some (Switch.ofExcept (State.notify { s.setTables after with ctl := .sending fd_data }
        fd_data env.headerFails env.dataFails)) = _
      rw [notify_eq]
      have htables : State.tables { s.setTables after with ctl := .sending fd_data } = after := rfl
      rw [htables]
      simp only [Except.bind]
      generalize (Tables.sendCtlMessage .MSG_PORT_ADD
        (wordBytes 4 (BitVec.ofInt 32 fd_data).toNat) env.headerFails env.dataFails).forget after =
          sent
      cases sent <;> simp [Except.map, State.setTables, hctl]

theorem ended_afterRequest (hctl : s.ctl = .waiting) :
    (switch c).Ended (GoesOn env) (s.afterRequest env) := by
  intro a ha
  rw [afterRequest]
  cases (Tables.handleWdReq env).forget s.tables with
  | error halt => rfl
  | ok result =>
      have hwaiting : (s.setTables result.2).ctl = .waiting := hctl
      rcases ha with rfl | rfl <;>
        simp [Except.map, Switch.ofExcept, switch, Switch.step, State.step, hwaiting]

/-- As long as `malloc` succeeds and nobody else makes a step, a request is answered in one way only:
the runs of the control plane are the beginnings of one run, which does what `handle_wd_req` does in
one step. -/
theorem run_request (h : AsksForPort env.request) (hmalloc : env.mallocFails = false)
    (hctl : s.ctl = .waiting) (hword : CtlReqType.data ⟨.CTL_WD, fd⟩ ∈ s.ctl_fds)
    (accept : AcceptEnv) :
    ∃ acts, (∀ a ∈ acts, GoesOn env a) ∧
      (switch c).run (.running s) (.ctlEvent (CtlReqType.data ⟨.CTL_WD, fd⟩)
          { accept := accept, request := env.request } :: acts) = some (s.afterRequest env) ∧
      ∀ acts' t, (∀ a ∈ acts', GoesOn env a) →
        (switch c).run (.running s) (.ctlEvent (CtlReqType.data ⟨.CTL_WD, fd⟩)
          { accept := accept, request := env.request } :: acts') = some t →
          acts' <+: acts ∧ ((switch c).Ended (GoesOn env) t → t = s.afterRequest env) := by
  rcases exists_run_handleWdReq (c := c) h hmalloc hctl hword accept with ⟨acts, hacts, hrun⟩
  refine ⟨acts, hacts, hrun, ?_⟩
  intro acts' t hacts' hrun'
  exact Machine.ended_unique_cons oneAtATime_goesOn hacts hrun (ended_afterRequest hctl) hacts' hrun'

end State

namespace Switch

variable {c : Config} {s : State}

/-- A request for a port attaches one or leaves no trace exactly if a call fails before anything
has been changed, and no -1 is sent on, or if every call succeeds. -/
theorem leavesNoTrace_iff_of_reaches
    (h : (switch c).Reaches (.running (State.start c)) (.running s)) {env : PortRequestEnv}
    (hasks : AsksForPort env.request) :
    LeavesNoTrace s.tables env ↔ RefusedEarly env ∨ Succeeds s.tables env :=
  leavesNoTrace_iff (portsInv_of_reaches h).inv.manager hasks

/-- A request for a port whose system calls succeed, but perhaps for `fcntl`. -/
def portRequestEnv (fcntlFails : Bool) : PortRequestEnv :=
  { request :=
      { req := some (portRequest 3)
        stale := ReqBuf.zeroed
        opening :=
          { socket := some 8
            fcntlFails := fcntlFails
            connectFails := false } }
    mallocFails := false
    binding :=
      { unlinkFails := false
        bindFails := false
        write := .written
        reallocated := true }
    headerFails := false
    dataFails := false }

/-- The first request of all. -/
theorem leavesNoTrace_first_request :
    AsksForPort (portRequestEnv false).request ∧
      (LeavesNoTrace (State.start oneWorker).tables (portRequestEnv false) ↔
        RefusedEarly (portRequestEnv false) ∨
          Succeeds (State.start oneWorker).tables (portRequestEnv false)) :=
  ⟨by decide +kernel,
    leavesNoTrace_iff_of_reaches (c := oneWorker) (Machine.Reaches.refl _) (by decide +kernel)⟩

/-- `fcntl` fails: no port is made, and a descriptor of -1 is announced. -/
theorem announced_refused_port :
    AsksForPort (portRequestEnv true).request ∧
      (Tables.handleWdReq (portRequestEnv true)).ends (State.start oneWorker).tables =
        (.ok 0, { (State.start oneWorker).tables with ctl_pipe := portAddBytes (-1) }) ∧
      ¬ LeavesNoTrace (State.start oneWorker).tables (portRequestEnv true) := by
  have hasks : AsksForPort (portRequestEnv true).request := by decide +kernel
  refine ⟨hasks, ?_, ?_⟩
  · rw [handleWdReq_of_asksForPort hasks]
    rfl
  · rw [leavesNoTrace_iff (PortManager.inv_alloc _ _) hasks]
    rintro (hrefused | ⟨_, _, hfcntl, _⟩)
    · simp [RefusedEarly, Tables.StopsEarly, portRequestEnv] at hrefused
    · cases hfcntl

end Switch

end Process
end EVdeSwitch
