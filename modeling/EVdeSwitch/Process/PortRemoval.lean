import EVdeSwitch.Io.PortRemoval
import EVdeSwitch.Process.PortConsistency

/-!
# PortRemoval — `remove_port` in a running switch

The descriptor of an endpoint is polled by the data plane, and `remove_port` takes it out of the
set that the control plane polls.  It is not in there, so in no state of the switch is a port ever
removed.
-/

namespace EVdeSwitch
namespace Process

open EVdeSwitch.ControlPlane
open EVdeSwitch.DataPlane
open EVdeSwitch.Io
open EVdeSwitch.Lib
open EVdeSwitch.Message
open EVdeSwitch.Utils

/-! ## The environment -/

namespace State

/-- Where `accept_new_ctl_conn` calls it, `accept` returns a descriptor that is not open. -/
def AcceptFresh (s : State) : SwitchAction → Prop
  | .ctlEvent word env => (HI word).toInt = CtlReqType.CTL_LISTEN.toNat →
      ∀ client_fd ∈ env.accept.client, client_fd.toInt ∉ s.openFds
  | .bind _ | .notify _ _ | .dataEvent _ _ | .push | .write | .read _ | .pop _
  | .process _ _ _ => True

instance decidableAcceptFresh (s : State) : ∀ a, Decidable (s.AcceptFresh a)
  | .ctlEvent word env =>
      inferInstanceAs (Decidable ((HI word).toInt = CtlReqType.CTL_LISTEN.toNat →
        ∀ client_fd ∈ env.accept.client, client_fd.toInt ∉ s.openFds))
  | .bind _ | .notify _ _ | .dataEvent _ _ | .push | .write | .read _ | .pop _
  | .process _ _ _ => isTrue trivial

/-- What `remove_port` works on. -/
def portSystem (s : State) (heap : EndpointHeap) : PortSystem :=
  { arena := s.arena
    heap := heap
    fdt := s.engine.fdt
    ctl_plane_fds := s.ctl_fds
    data_plane_fds := s.data_fds }

/-! ## Descriptors of clients and of endpoints -/

/-- No descriptor of an endpoint is polled by the control plane. -/
structure Apart (s : State) : Prop where
  ports : s.PortsInv
  apart : ∀ ep ∈ s.engine.endpoints, ∀ word ∈ s.ctl_fds, (LO word).toInt ≠ ep.fd_data.toInt

variable {c : Config} {s t : State} {a : SwitchAction}

theorem apart_start (c : Config) : (start c).Apart where
  ports := portsInv_start c
  apart := by
    intro ep hep
    cases hep

namespace Apart

theorem accepted (hs : s.Apart) {client_fd : Fd} (hfresh : client_fd.toInt ∉ s.openFds) :
    ∀ ep ∈ s.engine.endpoints,
      ∀ word ∈ s.ctl_fds ++ [CtlReqType.data ⟨.CTL_WD, client_fd⟩],
        (LO word).toInt ≠ ep.fd_data.toInt := by
  intro ep hep word hword
  rcases List.mem_append.1 hword with hold | hnew
  · exact hs.apart ep hep word hold
  · have hfd : (LO word).toInt = client_fd.toInt := by
      rw [List.mem_singleton.1 hnew]
      exact LO_eventData _ client_fd
    rw [hfd]
    intro heq
    exact hfresh (by rw [heq]; exact mem_openFds hep)

theorem opened (hs : s.Apart) {fd_data : Fd} (hfresh : fd_data.toInt ∉ s.openFds) :
    ∀ ep ∈ (⟨s.portc, fd_data⟩ : Endpoint) :: s.engine.endpoints, ∀ word ∈ s.ctl_fds,
      (LO word).toInt ≠ ep.fd_data.toInt := by
  intro ep hep word hword
  rcases List.mem_cons.1 hep with rfl | hold
  · intro heq
    -- the descriptor of the socket would be one that is polled, and so open
    refine hfresh (List.mem_append_left _ (List.mem_map.2 ⟨word, ?_, heq⟩))
    exact List.mem_append_left _ hword
  · exact hs.apart ep hold word hword

theorem step (hs : s.Apart) (hsocket : s.SocketFresh a) (haccept : s.AcceptFresh a)
    (h : s.step c a = some (.ok t)) : t.Apart := by
  have hmoves : Moves c s a t := hs.ports.inv.moves h
  have hports : t.PortsInv := hs.ports.step ((hs.ports.inv.step h).inv t rfl) hmoves
  refine ⟨hports, ?_⟩
  -- only a client that is accepted and a port that is opened add a descriptor
  cases hmoves with
  | @accepted fd client_fd env hclient =>
      exact hs.accepted (haccept (HI_eventData (CtlReqType.toNat_lt _) fd) client_fd hclient)
  | @opened fd fd_data env hasks hfcntl hfd =>
      exact hs.opened (hsocket (HI_eventData (CtlReqType.toNat_lt _) fd) hasks fd_data hfd)
  | closed fd heof =>
      intro ep hep word hword
      exact hs.apart ep hep word (List.mem_filter.1 hword).1
  | received fd engine hstep =>
      have htables := Engine.step_tables (by simp) hstep
      simpa [htables.2] using hs.apart
  | worked engine ha hstep =>
      have htables := Engine.step_tables (engineAction_ne_control ha) hstep
      simpa [htables.2] using hs.apart
  | _ => exact hs.apart

end Apart

end State

/-! ## All runs -/

namespace Switch

/-- The kernel gives out no descriptor that is open. -/
def FdsFresh (x : Switch × EndpointHeap) (a : SwitchAction) : Prop :=
  match x.1 with
  | .running s => s.SocketFresh a ∧ s.AcceptFresh a
  | .ended _ => True

instance decidableFdsFresh : ∀ (x : Switch × EndpointHeap) (a : SwitchAction),
    Decidable (FdsFresh x a)
  | (.running s, _), a => inferInstanceAs (Decidable (s.SocketFresh a ∧ s.AcceptFresh a))
  | (.ended _, _), _ => isTrue trivial

def Apart : Switch × EndpointHeap → Prop
  | (.running s, _) => s.Apart
  | (.ended _, _) => True

variable {c : Config}

theorem apart_step {x y : Switch × EndpointHeap} {a : SwitchAction} (hx : Apart x)
    (ha : FdsFresh x a) (h : ((switch c).withHistory recordHeap).step x a = some y) : Apart y := by
  have hstep := (Machine.withHistory_step.1 h).1
  rcases x with ⟨s, heap⟩
  rcases y with ⟨t, heap'⟩
  cases s with
  | ended halt => cases hstep
  | running s =>
      rcases Option.map_eq_some_iff.1 hstep with ⟨r, hr, hrt⟩
      cases r with
      | error halt =>
          cases hrt
          trivial
      | ok u =>
          cases hrt
          exact State.Apart.step hx ha.1 ha.2 hr

/-- A port that `get_port` finds has an endpoint, which the control plane does not poll. -/
theorem attached_of_getPort {s : State} (hs : s.Apart) {portno : Int} {p : Port}
    (hport : getPort s.arena portno = .ok (some p)) :
    ∃ ep ∈ s.engine.endpoints, p.ep = some ep ∧ (ep.port : Int) = portno := by
  rcases getPort_eq_some hport with ⟨hp, hflag, hnonneg⟩
  rw [hp] at hflag
  rcases hs.ports.up _ hflag with ⟨ep, hep, hi⟩
  -- a slot that is up has the endpoint of its own number
  have hslot : s.arena.port portno.toNat = { flag := .UP, ep := some ep } := by
    rw [← hi]
    exact hs.ports.slot ep hep
  refine ⟨ep, hep, ?_, ?_⟩
  · rw [hp, hslot]
  · rw [hi]
    exact Int.toNat_of_nonneg hnonneg

theorem apart_of_run {acts : List SwitchAction} {s : State} {heap : EndpointHeap}
    (hfresh : ((switch c).withHistory recordHeap).Guarded FdsFresh
      (.running (State.start c), .empty) acts)
    (hrun : ((switch c).withHistory recordHeap).run (.running (State.start c), .empty) acts =
      some (.running s, heap)) : s.Apart := by
  have hstart : Apart (.running (State.start c), .empty) := State.apart_start c
  exact (Machine.invariant_run_guarded Apart (fun _ _ _ hx ha hstep => apart_step hx ha hstep)
    hstart hfresh hrun : Apart (.running s, heap))

/-- `remove_fd` is given the set of the control plane. -/
theorem removePort_fails {s : State} (hs : s.Apart) {heap : EndpointHeap} {portno : Int} {p : Port}
    (hport : getPort s.arena portno = .ok (some p)) {ep : Endpoint} (hep : ep ∈ s.engine.endpoints)
    (hpep : p.ep = some ep) :
    (∀ fuel, (s.portSystem heap).removePort portno (fuel + 1) =
      some (.error (.exit 1 "Failed to remove fd %d from epoll %s: %s"))) ∧
    ¬ ∃ fuel t, (s.portSystem heap).removePort portno fuel = some (.ok t) ∧
      (s.portSystem heap).RemovesExactly ep t := by
  have hunpolled : ∀ word ∈ (s.portSystem heap).ctl_plane_fds,
      (LO word).toInt ≠ ep.fd_data.toInt := hs.apart ep hep
  have hget : getPort (s.portSystem heap).arena portno = .ok (some p) := hport
  -- the descriptor of the endpoint is not in the set that `remove_fd` is given
  refine ⟨PortSystem.removePort_exits hget hpep hunpolled, ?_⟩
  rintro ⟨fuel, t, hremoved, _⟩
  exact PortSystem.removePort_ne_ok hget hpep hunpolled fuel t hremoved

/-- `free_port` on its own frees the endpoints of all the ports opened earlier, and they stay in the
list. -/
theorem freePort_frees_of_run {acts : List SwitchAction} {s : State} {heap : EndpointHeap}
    (hgranted : ((switch c).withHistory recordHeap).Guarded Granted
      (.running (State.start c), .empty) acts)
    (hrun : ((switch c).withHistory recordHeap).run (.running (State.start c), .empty) acts =
      some (.running s, heap)) {before after : List Endpoint} {ep : Endpoint}
    (hsplit : s.engine.endpoints = before ++ ep :: after) :
    ∃ t, (s.portSystem heap).freePort ep.port (after.length + 1) = some t ∧
      (∀ other ∈ ep :: after, t.heap.live other = false) ∧
      Linked t.heap.next t.heap.endpoints s.engine.endpoints := by
  have hstart : AttachInv (.running (State.start c), .empty) := State.attachInv_start c
  -- with every descriptor fresh the endpoints are linked in the order of the list
  have hs : s.AttachInv heap :=
    (Machine.invariant_run_guarded AttachInv (fun _ _ _ hx ha hstep => attachInv_step hx ha hstep)
      hstart hgranted hrun : AttachInv (.running s, heap))
  have hep : ep ∈ s.engine.endpoints := by
    rw [hsplit]
    exact List.mem_append_right _ List.mem_cons_self
  have hslot : ((s.portSystem heap).arena.port ep.port).ep = some ep :=
    congrArg Port.ep (hs.ports.slot ep hep)
  exact PortSystem.freePort_frees (s := s.portSystem heap) hs.heap.linked hsplit hslot

/-- In no state of the switch does `remove_port` remove a port that has an endpoint: the process
ends when it takes the descriptor out of the wrong set. -/
theorem removePort_never {acts : List SwitchAction} {s : State} {heap : EndpointHeap}
    (hfresh : ((switch c).withHistory recordHeap).Guarded FdsFresh
      (.running (State.start c), .empty) acts)
    (hrun : ((switch c).withHistory recordHeap).run (.running (State.start c), .empty) acts =
      some (.running s, heap)) {portno : Int} {p : Port}
    (hport : getPort s.arena portno = .ok (some p)) :
    ∃ ep ∈ s.engine.endpoints, p.ep = some ep ∧ (ep.port : Int) = portno ∧
      (∀ fuel, (s.portSystem heap).removePort portno (fuel + 1) =
        some (.error (.exit 1 "Failed to remove fd %d from epoll %s: %s"))) ∧
      ¬ ∃ fuel t, (s.portSystem heap).removePort portno fuel = some (.ok t) ∧
        (s.portSystem heap).RemovesExactly ep t := by
  have hs : s.Apart := apart_of_run hfresh hrun
  rcases attached_of_getPort hs hport with ⟨ep, hep, hpep, hi⟩
  exact ⟨ep, hep, hpep, hi, removePort_fails hs hport hep hpep⟩

/-- A client connects and asks for a port, and the data plane is told of it; no system call
fails. -/
def attachPort (client_fd fd_data : Fd) : List SwitchAction :=
  let env : CtlEventEnv :=
    { accept :=
        { client := some client_fd
          fcntlFails := false
          epollFails := false }
      request :=
        { req := some (portRequest 3)
          stale := ReqBuf.zeroed
          opening :=
            { socket := some fd_data
              fcntlFails := false
              connectFails := false } } }
  [.ctlEvent (eventData CtlReqType.CTL_LISTEN.toNat 3) env,
    .ctlEvent (eventData CtlReqType.CTL_WD.toNat client_fd) env,
    .bind
      { unlinkFails := false
        bindFails := false
        write := .written
        reallocated := true },
    .notify false false,
    .dataEvent (eventData DataReqType.CTL_MESSAGE.toNat 5)
      { ctl :=
          { stale := 0
            readFails := false
            epollFails := false }
        stale := Packet.zeroed
        frame := none }]

/-- What `get_port` finds, where the process runs. -/
def portOf (portno : Int) : Switch × EndpointHeap → Option (Except Halt (Option Port))
  | (.running s, _) => some (getPort s.arena portno)
  | (.ended _, _) => none

/-- The first of two ports. -/
theorem removePort_never_first :
    ∃ s heap p, ((switch oneWorker).withHistory recordHeap).run
        (.running (State.start oneWorker), .empty) (attachPort 7 8 ++ attachPort 9 10) =
          some (.running s, heap) ∧
      getPort s.arena 1 = .ok (some p) ∧
      ∃ ep ∈ s.engine.endpoints, p.ep = some ep ∧ (ep.port : Int) = 1 ∧
        (∀ fuel, (s.portSystem heap).removePort 1 (fuel + 1) =
          some (.error (.exit 1 "Failed to remove fd %d from epoll %s: %s"))) ∧
        ¬ ∃ fuel t, (s.portSystem heap).removePort 1 fuel = some (.ok t) ∧
          (s.portSystem heap).RemovesExactly ep t := by
  have heval : (((switch oneWorker).withHistory recordHeap).run
      (.running (State.start oneWorker), .empty) (attachPort 7 8 ++ attachPort 9 10)).map
        (portOf 1) = some (some (.ok (some { flag := .UP, ep := some ⟨1, 8⟩ }))) := by
    decide +kernel
  have hfresh : ((switch oneWorker).withHistory recordHeap).Guarded FdsFresh
      (.running (State.start oneWorker), .empty) (attachPort 7 8 ++ attachPort 9 10) := by
    decide +kernel
  rcases Option.map_eq_some_iff.1 heval with ⟨⟨t, heap⟩, hrun, hport⟩
  cases t with
  | ended halt => cases hport
  | running s =>
      have hget := Option.some.inj hport
      exact ⟨s, heap, _, hrun, hget, removePort_never hfresh hrun hget⟩

/-- The second of two ports is attached, and is not removed. -/
theorem not_removesExactly_second :
    ∃ s heap ep, ((switch oneWorker).withHistory recordHeap).Guarded FdsFresh
        (.running (State.start oneWorker), .empty) (attachPort 7 8 ++ attachPort 9 10) ∧
      ((switch oneWorker).withHistory recordHeap).run
        (.running (State.start oneWorker), .empty) (attachPort 7 8 ++ attachPort 9 10) =
          some (.running s, heap) ∧
      getPort s.arena 2 = .ok (some { flag := .UP, ep := some ep }) ∧
      ¬ ∃ fuel t, (s.portSystem heap).removePort 2 fuel = some (.ok t) ∧
        (s.portSystem heap).RemovesExactly ep t := by
  have heval : (((switch oneWorker).withHistory recordHeap).run
      (.running (State.start oneWorker), .empty) (attachPort 7 8 ++ attachPort 9 10)).map
        (portOf 2) = some (some (.ok (some { flag := .UP, ep := some ⟨2, 10⟩ }))) := by
    decide +kernel
  have hfresh : ((switch oneWorker).withHistory recordHeap).Guarded FdsFresh
      (.running (State.start oneWorker), .empty) (attachPort 7 8 ++ attachPort 9 10) := by
    decide +kernel
  rcases Option.map_eq_some_iff.1 heval with ⟨⟨t, heap⟩, hrun, hport⟩
  cases t with
  | ended halt => cases hport
  | running s =>
      have hget := Option.some.inj hport
      have hs : s.Apart := apart_of_run hfresh hrun
      rcases attached_of_getPort hs hget with ⟨ep, hep, hpep, _⟩
      have hsame : (⟨2, 10⟩ : Endpoint) = ep := Option.some.inj hpep
      subst hsame
      exact ⟨s, heap, _, hfresh, hrun, hget, (removePort_fails hs hget hep rfl).2⟩

end Switch

end Process
end EVdeSwitch
