import EVdeSwitch.Io.EndpointHeap
import EVdeSwitch.Lib.History
import EVdeSwitch.Process.Ports
import EVdeSwitch.Process.Survival

/-!
# PortConsistency — every announced descriptor has its endpoint

The data plane polls a descriptor because the control plane has written it into the pipe, and the
workers then look up its endpoint.  If the kernel gives out no descriptor twice and memory does not
run out, the lookup succeeds, and the endpoint it finds is the one in the list and in the slot of
its port.
-/

namespace EVdeSwitch
namespace Process

open EVdeSwitch.ControlPlane
open EVdeSwitch.DataPlane
open EVdeSwitch.Io
open EVdeSwitch.Lib
open EVdeSwitch.Message
open EVdeSwitch.Utils

/-! ## The environment -/

namespace State

/-- The descriptors the process has open: those it polls, and those of the endpoints. -/
def openFds (s : State) : List Int :=
  (s.ctl_fds ++ s.data_fds).map (fun word => (LO word).toInt) ++
    s.engine.endpoints.map fun ep => ep.fd_data.toInt

/-- Where `add_port` calls it, `socket` returns a descriptor that is not open. -/
def SocketFresh (s : State) : SwitchAction → Prop
  | .ctlEvent word env => (HI word).toInt = CtlReqType.CTL_WD.toNat → AsksForPort env.request →
      ∀ fd_data ∈ env.request.opening.socket, fd_data.toInt ∉ s.openFds
  | .bind _ | .notify _ _ | .dataEvent _ _ | .push | .write | .read _ | .pop _
  | .process _ _ _ => True

instance decidableSocketFresh (s : State) : ∀ a, Decidable (s.SocketFresh a)
  | .ctlEvent word env =>
      inferInstanceAs (Decidable ((HI word).toInt = CtlReqType.CTL_WD.toNat →
        AsksForPort env.request →
          ∀ fd_data ∈ env.request.opening.socket, fd_data.toInt ∉ s.openFds))
  | .bind _ | .notify _ _ | .dataEvent _ _ | .push | .write | .read _ | .pop _
  | .process _ _ _ => isTrue trivial

end State

namespace Switch

def SocketFresh : Switch → SwitchAction → Prop
  | .running s, a => s.SocketFresh a
  | .ended _, _ => True

instance decidableSocketFresh : ∀ (s : Switch) (a : SwitchAction), Decidable (s.SocketFresh a)
  | .running s, a => inferInstanceAs (Decidable (s.SocketFresh a))
  | .ended _, _ => isTrue trivial

end Switch

/-- Where `fd_table_insert` calls it, `realloc` finds memory. -/
def Allocates : SwitchAction → Prop
  | .bind env => env.reallocated = true
  | .ctlEvent _ _ | .notify _ _ | .dataEvent _ _ | .push | .write | .read _ | .pop _
  | .process _ _ _ => True

instance decidableAllocates : ∀ a, Decidable (Allocates a)
  | .bind env => inferInstanceAs (Decidable (env.reallocated = true))
  | .ctlEvent _ _ | .notify _ _ | .dataEvent _ _ | .push | .write | .read _ | .pop _
  | .process _ _ _ => isTrue trivial

/-! ## The records behind the list -/

/-- The links that `add_port` writes. -/
def recordHeap (_s : Switch) (a : SwitchAction) (t : Switch) (heap : EndpointHeap) :
    EndpointHeap :=
  match a, t with
  | .ctlEvent _ _, .running t =>
      match t.ctl with
      | .binding ep => heap.add ep
      | _ => heap
  | _, _ => heap

/-! ## What agrees -/

namespace State

/-- The table of descriptors, the list and the slots all lead to one endpoint. -/
def Attached (s : State) (fd : Int) : Prop :=
  ∃ ep, fdTableLookup s.engine.fdt fd = some ep ∧ ep.fd_data.toInt = fd ∧
    s.engine.endpoints.count ep = 1 ∧ s.arena.port ep.port = { flag := .UP, ep := some ep }

/-- The structures of both planes agree, and so do the messages between them. -/
structure Consistent (s : State) (heap : EndpointHeap) : Prop where
  registered : ∀ word ∈ s.data_fds, (HI word).toInt = DataReqType.PACKET.toNat →
    0 ≤ (LO word).toInt → s.Attached (LO word).toInt
  announced : ∃ fds : List Int, (∀ fd ∈ fds, PortFd fd) ∧ s.ctl_pipe = fds.flatMap portAddBytes ∧
    ∀ fd ∈ fds, 0 ≤ fd → s.Attached fd
  linked : Linked heap.next heap.endpoints s.engine.endpoints
  nodup : s.engine.endpoints.Nodup
  ports_nodup : (s.engine.endpoints.map Endpoint.port).Nodup
  fds_nodup : (s.engine.endpoints.map Endpoint.fd_data).Nodup

/-! ## The invariant -/

/-- The descriptor has an endpoint in the table. -/
def Known (s : State) (fd : Int) : Prop :=
  ∃ ep, fdTableLookup s.engine.fdt fd = some ep

/-- A descriptor is known before it is sent, in the pipe, and when it is polled. -/
structure AttachInv (s : State) (heap : EndpointHeap) : Prop where
  ports : s.PortsInv
  heap : heap.Holds s.engine.endpoints
  fds_nodup : (s.engine.endpoints.map Endpoint.fd_data).Nodup
  sending : ∀ fd, s.ctl = .sending fd → 0 ≤ fd → s.Known fd
  announced : ∃ fds : List Int, (∀ fd ∈ fds, PortFd fd) ∧ s.ctl_pipe = fds.flatMap portAddBytes ∧
    ∀ fd ∈ fds, 0 ≤ fd → s.Known fd
  registered : ∀ word ∈ s.data_fds, (HI word).toInt = DataReqType.PACKET.toNat →
    s.Known (LO word).toInt

variable {c : Config} {s t : State} {heap : EndpointHeap} {a : SwitchAction}

theorem attachInv_start (c : Config) : (start c).AttachInv .empty where
  ports := portsInv_start c
  heap := EndpointHeap.holds_empty
  fds_nodup := List.nodup_nil
  sending := by simp [start]
  announced := ⟨[], by simp, rfl, by simp⟩
  registered := by
    intro word hword htype
    -- the one word is that of the pipe
    have hmessage : (HI word).toInt = DataReqType.CTL_MESSAGE.toNat := by
      rw [List.mem_singleton.1 hword]
      exact HI_eventData (DataReqType.toNat_lt _) _
    simp [hmessage, DataReqType.toNat] at htype

/-- An entry of the table is never taken out. -/
theorem Known.mono {fd : Int} (hfd : s.Known fd) (halloc : Allocates a) (h : Moves c s a t) :
    t.Known fd := by
  rcases hfd with ⟨found, hfound⟩
  rcases h.fdt_cases with hfdt | ⟨ep, env, rfl, _, _, hfdt⟩
  · exact ⟨found, by rw [hfdt, hfound]⟩
  · have hrealloc : env.reallocated = true := halloc
    rw [Known, hfdt, hrealloc]
    simp only [fdTableLookup_insert]
    by_cases heq : fd = ep.fd_data.toInt
    · exact ⟨ep, if_pos heq⟩
    · exact ⟨found, by rw [if_neg heq, hfound]⟩

theorem mem_openFds {ep : Endpoint} (hep : ep ∈ s.engine.endpoints) :
    ep.fd_data.toInt ∈ s.openFds :=
  List.mem_append_right _ (List.mem_map_of_mem hep)

/-- A descriptor that is not open is not that of an endpoint. -/
theorem fds_nodup_step (hnodup : (s.engine.endpoints.map Endpoint.fd_data).Nodup)
    (hfresh : s.SocketFresh a) (h : Moves c s a t) :
    (t.engine.endpoints.map Endpoint.fd_data).Nodup := by
  rcases h.manager_cases with hmanager | ⟨fd, env, fd_data, rfl, hasks, hsocket, rfl⟩
  · have hendpoints : t.engine.endpoints = s.engine.endpoints :=
      congrArg PortManager.endpoints hmanager
    simpa [hendpoints] using hnodup
  · refine List.nodup_cons.2 ⟨?_, hnodup⟩
    intro hmem
    rcases List.mem_map.1 hmem with ⟨ep, hep, hfd⟩
    refine hfresh (HI_eventData (CtlReqType.toNat_lt _) fd) hasks fd_data (by simp [hsocket]) ?_
    simpa [hfd] using mem_openFds hep

namespace AttachInv

/-- The records behind the list of endpoints. -/
theorem heap_step (hs : s.AttachInv heap)
    (hwait : ∀ word env, a = .ctlEvent word env → s.ctl = .waiting) (h : Moves c s a t) :
    (recordHeap (.running s) a (.running t) heap).Holds t.engine.endpoints := by
  rcases h.manager_cases with hmanager | ⟨fd, env, fd_data, rfl, _, _, rfl⟩
  · have hendpoints : t.engine.endpoints = s.engine.endpoints :=
      congrArg PortManager.endpoints hmanager
    have hsame : recordHeap (.running s) a (.running t) heap = heap := by
      cases a with
      | ctlEvent word env =>
          cases hctl : t.ctl with
          | binding ep =>
              -- then the list would be longer
              rcases h.binding_cases hctl with hold | hnew
              · simp [hwait word env rfl] at hold
              · simp [hendpoints] at hnew
          | _ => simp [recordHeap, hctl]
      | _ => rfl
    rw [hsame, hendpoints]
    exact hs.heap
  · have hnew : (⟨s.portc, fd_data⟩ : Endpoint) ∉ s.engine.endpoints :=
      fun hmem => (hs.ports.lt_portc _ hmem).false
    exact hs.heap.add hnew

theorem sending_step (hs : s.AttachInv heap) (halloc : Allocates a) (h : Moves c s a t) (fd : Int)
    (hctl : t.ctl = .sending fd) (hnonneg : 0 ≤ fd) : t.Known fd := by
  rcases h.sending_cases hctl with hold | rfl | ⟨ep, env, rfl, rfl, hfdt⟩
  · exact (hs.sending fd hold hnonneg).mono halloc h
  · exact absurd hnonneg (by decide)
  · -- `fd_table_insert` has just been called
    have hrealloc : env.reallocated = true := halloc
    refine ⟨ep, ?_⟩
    rw [hfdt, hrealloc, fdTableLookup_insert, if_pos rfl]

/-- The message at the front of the pipe tells of a known descriptor, and so do the others. -/
theorem front (hs : s.AttachInv heap) {data_fd : Fd} {rest : List UInt8}
    (hread : s.ctl_pipe = portAddBytes data_fd.toInt ++ rest) :
    s.Known data_fd.toInt ∧
      ∃ fds : List Int, (∀ fd ∈ fds, PortFd fd) ∧ rest = fds.flatMap portAddBytes ∧
        ∀ fd ∈ fds, 0 ≤ fd → s.Known fd := by
  rcases hs.announced with ⟨fds, hfds, hpipe, hknown⟩
  cases fds with
  | nil =>
      -- an empty pipe has no message
      have hlength := congrArg List.length (hread.symm.trans hpipe)
      simp [portAddBytes, length_headerBytes] at hlength
  | cons fd fds =>
      have hsplit := (hfds fd List.mem_cons_self).portAddBytes_append_inj (PortFd.of_fd data_fd)
        (hpipe.symm.trans hread)
      refine ⟨?_, fds, fun fd hfd => hfds fd (List.mem_cons_of_mem _ hfd), hsplit.2.symm,
        fun fd hfd => hknown fd (List.mem_cons_of_mem _ hfd)⟩
      have hnonneg : 0 ≤ fd := by
        simpa [hsplit.1] using data_fd.toInt_nonneg
      simpa [hsplit.1] using hknown fd List.mem_cons_self hnonneg

theorem announced_step (hs : s.AttachInv heap) (halloc : Allocates a) (h : Moves c s a t) :
    ∃ fds : List Int, (∀ fd ∈ fds, PortFd fd) ∧ t.ctl_pipe = fds.flatMap portAddBytes ∧
      ∀ fd ∈ fds, 0 ≤ fd → t.Known fd := by
  rcases hs.announced with ⟨fds, hfds, hpipe, hknown⟩
  have hkept : ∀ fd ∈ fds, 0 ≤ fd → t.Known fd :=
    fun fd hfd hnonneg => (hknown fd hfd hnonneg).mono halloc h
  rcases h.pipe_cases with ⟨hsame, _⟩ | ⟨fd_data, hctl, hwritten, _⟩ | ⟨data_fd, hread, _⟩
  · exact ⟨fds, hfds, hsame.trans hpipe, hkept⟩
  · have hport : PortFd fd_data := hs.ports.inv.sending fd_data hctl
    refine ⟨fds ++ [fd_data], ?_, ?_, ?_⟩
    · simpa [or_imp, forall_and] using ⟨hfds, hport⟩
    · simp [hwritten, hpipe]
    · intro fd hfd hnonneg
      rcases List.mem_append.1 hfd with hold | hnew
      · exact hkept fd hold hnonneg
      · rw [List.mem_singleton.1 hnew] at hnonneg ⊢
        exact (hs.sending fd_data hctl hnonneg).mono halloc h
  · -- the message at the front has been taken out
    rcases hs.front hread with ⟨_, fds, hfds, hpipe, hknown⟩
    exact ⟨fds, hfds, hpipe, fun fd hfd hnonneg => (hknown fd hfd hnonneg).mono halloc h⟩

theorem registered_step (hs : s.AttachInv heap) (halloc : Allocates a) (h : Moves c s a t) :
    ∀ word ∈ t.data_fds, (HI word).toInt = DataReqType.PACKET.toNat →
      t.Known (LO word).toInt := by
  intro word hword htype
  have hkept : ∀ word ∈ s.data_fds, (HI word).toInt = DataReqType.PACKET.toNat →
      t.Known (LO word).toInt :=
    fun word hword htype => (hs.registered word hword htype).mono halloc h
  rcases h.pipe_cases with ⟨_, hsame⟩ | ⟨_, _, _, hsame⟩ | ⟨data_fd, hread, hadded⟩
  · exact hkept word (by simpa [hsame] using hword) htype
  · exact hkept word (by simpa [hsame] using hword) htype
  · rw [hadded] at hword
    rcases List.mem_append.1 hword with hold | hnew
    · exact hkept word hold htype
    · -- the new word is that of the message just read
      have hlo : (LO word).toInt = data_fd.toInt := by
        rw [List.mem_singleton.1 hnew]
        exact LO_eventData _ data_fd
      rw [hlo]
      exact (hs.front hread).1.mono halloc h

theorem step (hs : s.AttachInv heap) (hfresh : s.SocketFresh a) (halloc : Allocates a)
    (h : s.step c a = some (.ok t)) : t.AttachInv (recordHeap (.running s) a (.running t) heap) := by
  have hmoves : Moves c s a t := hs.ports.inv.moves h
  have hwait : ∀ word env, a = .ctlEvent word env → s.ctl = .waiting := by
    rintro word env rfl
    exact (waiting_of_ctlEvent h).1
  exact
    { ports := hs.ports.step ((hs.ports.inv.step h).inv t rfl) hmoves
      heap := hs.heap_step hwait hmoves
      fds_nodup := fds_nodup_step hs.fds_nodup hfresh hmoves
      sending := hs.sending_step halloc hmoves
      announced := hs.announced_step halloc hmoves
      registered := hs.registered_step halloc hmoves }

theorem attached (hs : s.AttachInv heap) {fd : Int} (hfd : s.Known fd) : s.Attached fd := by
  rcases hfd with ⟨ep, hep⟩
  rcases hs.ports.fdt fd ep hep with ⟨hmem, hfd⟩
  have hnodup : s.engine.endpoints.Nodup := hs.ports.ports_nodup.of_map _
  exact ⟨ep, hep, hfd, List.count_eq_one_of_mem hnodup hmem, hs.ports.slot ep hmem⟩

theorem consistent (hs : s.AttachInv heap) : s.Consistent heap where
  registered := fun word hword htype _ => hs.attached (hs.registered word hword htype)
  announced := by
    rcases hs.announced with ⟨fds, hfds, hpipe, hknown⟩
    exact ⟨fds, hfds, hpipe, fun fd hfd hnonneg => hs.attached (hknown fd hfd hnonneg)⟩
  linked := hs.heap.linked
  nodup := hs.heap.linked.nodup
  ports_nodup := hs.ports.ports_nodup
  fds_nodup := hs.fds_nodup

end AttachInv

end State

/-! ## All runs -/

namespace Switch

/-- What is taken for granted of the kernel and of `realloc`. -/
def Granted (x : Switch × EndpointHeap) (a : SwitchAction) : Prop :=
  x.1.SocketFresh a ∧ Allocates a

instance decidableGranted (x : Switch × EndpointHeap) (a : SwitchAction) :
    Decidable (Granted x a) :=
  inferInstanceAs (Decidable (x.1.SocketFresh a ∧ Allocates a))

def AttachInv : Switch × EndpointHeap → Prop
  | (.running s, heap) => s.AttachInv heap
  | (.ended _, _) => True

variable {c : Config}

theorem attachInv_step {x y : Switch × EndpointHeap} {a : SwitchAction} (hx : AttachInv x)
    (ha : Granted x a) (h : ((switch c).withHistory recordHeap).step x a = some y) :
    AttachInv y := by
  rcases Machine.withHistory_step.1 h with ⟨hstep, hheap⟩
  rcases x with ⟨s, heap⟩
  rcases y with ⟨t, heap'⟩
  cases s with
  | ended halt => cases hstep
  | running s =>
      rcases Option.map_eq_some_iff.1 hstep with ⟨r, hr, hrt⟩
      cases r with
      | error halt =>
          cases hrt
          trivial
      | ok u =>
          cases hrt
          have hrecord : heap' = recordHeap (.running s) a (.running u) heap := hheap
          rw [hrecord]
          exact State.AttachInv.step hx ha.1 ha.2 hr

/-- In every state that the process comes to, whatever the clients ask for and in whatever order
the two planes and the workers take their steps, the structures that lead to the endpoints
agree. -/
theorem consistent_of_run {acts : List SwitchAction} {s : State} {heap : EndpointHeap}
    (hgranted : ((switch c).withHistory recordHeap).Guarded Granted
      (.running (State.start c), .empty) acts)
    (hrun : ((switch c).withHistory recordHeap).run (.running (State.start c), .empty) acts =
      some (.running s, heap)) : s.Consistent heap := by
  have hstart : AttachInv (.running (State.start c), .empty) := State.attachInv_start c
  have hend : AttachInv (.running s, heap) :=
    Machine.invariant_run_guarded AttachInv (fun _ _ _ hx ha hstep => attachInv_step hx ha hstep)
      hstart hgranted hrun
  exact State.AttachInv.consistent hend

/-- A client asks for a port, and the data plane is told of its descriptor; no system call
fails. -/
def connectAndAttach : List SwitchAction :=
  connectAndRequest 3 ++
    [.bind
        { unlinkFails := false
          bindFails := false
          write := .written
          reallocated := true },
      .notify false false,
      .dataEvent (eventData DataReqType.CTL_MESSAGE.toNat 5)
        { ctl :=
            { stale := 0
              readFails := false
              epollFails := false }
          stale := Packet.zeroed
          frame := none }]

theorem consistent_of_run_attached :
    ∃ s heap, ((switch oneWorker).withHistory recordHeap).run
        (.running (State.start oneWorker), .empty) connectAndAttach = some (.running s, heap) ∧
      s.Consistent heap := by
  have heval : (((switch oneWorker).withHistory recordHeap).run
      (.running (State.start oneWorker), .empty) connectAndAttach).map (fun x => halt x.1) =
        some none := by
    decide +kernel
  have hgranted : ((switch oneWorker).withHistory recordHeap).Guarded Granted
      (.running (State.start oneWorker), .empty) connectAndAttach := by
    decide +kernel
  rcases Option.map_eq_some_iff.1 heval with ⟨⟨t, heap⟩, hrun, hhalt⟩
  cases t with
  | ended halt => cases hhalt
  | running s => exact ⟨s, heap, hrun, consistent_of_run hgranted hrun⟩

end Switch

end Process
end EVdeSwitch
