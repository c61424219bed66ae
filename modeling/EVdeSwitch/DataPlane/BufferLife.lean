import EVdeSwitch.DataPlane.Attribution
import EVdeSwitch.DataPlane.ConnectionOrder
import EVdeSwitch.DataPlane.Fidelity
import EVdeSwitch.Lib.Custody
import EVdeSwitch.Lib.History

/-!
# BufferLife — who frees the buffer of a packet?

`dispatch_packet` allocates a buffer for every packet.  The only `free` is that of `send_packet`
(`src/data_plane/forwarding_engine.c`), behind a `send` to the one endpoint on the port; the other
ways through the loop body of the worker leave the buffer behind.
-/

namespace EVdeSwitch
namespace DataPlane

open EVdeSwitch.ControlPlane
open EVdeSwitch.Io
open EVdeSwitch.Lib
open EVdeSwitch.Utils

/-! ## Where the buffer is freed -/

/-- Whether `send_packet` frees the buffer. -/
def sendPacketFrees (endpoints : List Endpoint) (port : Int) : Bool :=
  match endpoints.find? fun ep => (ep.port : Int) = port with
  | some _ => true
  | none => false

/-- Whether the rest of the loop body does, in the order in which it asks. -/
def forwardPacketFrees (endpoints : List Endpoint) (mt : MacTable) (ep : Endpoint) (p : Packet)
    (now : Nat) : Bool :=
  if isIPv6 p then
    false
  else if isBroadcast p.dest then
    -- `flood_packet` frees nothing
    false
  else
    let out_port := (macTableLookup mt p.dest VLAN now).1
    if (ep.port : Int) = out_port then
      false
    else if out_port = -1 then
      false
    else
      sendPacketFrees endpoints out_port

theorem sendPacketFrees_iff {endpoints : List Endpoint} {port : Int} :
    sendPacketFrees endpoints port = true ↔ ∃ ep ∈ endpoints, (ep.port : Int) = port := by
  cases hfind : endpoints.find? fun ep => (ep.port : Int) = port with
  | none =>
      have hnone : ¬ ∃ ep ∈ endpoints, (ep.port : Int) = port := by simpa using hfind
      simpa [sendPacketFrees, hfind] using hnone
  | some ep =>
      have hsome : ∃ ep ∈ endpoints, (ep.port : Int) = port :=
        ⟨ep, List.mem_of_find?_eq_some hfind, by simpa using List.find?_some hfind⟩
      simpa [sendPacketFrees, hfind] using hsome

/-- The buffers that are freed are those of the packets that are sent to one endpoint. -/
theorem forwardPacketFrees_iff (endpoints : List Endpoint) (mt : MacTable) (ep : Endpoint)
    (p : Packet) (now : Nat) :
    forwardPacketFrees endpoints mt ep p now = true ↔ SentToOne endpoints mt ep p now := by
  cases hv6 : isIPv6 p with
  | true => simp [forwardPacketFrees, SentToOne, hv6]
  | false =>
      cases hgroup : isBroadcast p.dest with
      | true => simp [forwardPacketFrees, SentToOne, hgroup]
      | false =>
          by_cases hsame : (ep.port : Int) = (macTableLookup mt p.dest VLAN now).1
          · simp [forwardPacketFrees, SentToOne, hsame]
          · by_cases hout : (macTableLookup mt p.dest VLAN now).1 = -1
            · -- no endpoint has the port -1
              simp [forwardPacketFrees, SentToOne, hout]
            · simp [forwardPacketFrees, SentToOne, hv6, hgroup, hsame, hout, sendPacketFrees_iff]

/-! ## The buffers of a run -/

/-- The buffers that are allocated, and the calls of `free`, in order. -/
structure BufferLife where
  live : List Buffer
  released : List Buffer

namespace BufferLife

def empty : BufferLife :=
  { live := []
    released := [] }

def malloc (life : BufferLife) (b : Buffer) : BufferLife :=
  { life with live := b :: life.live }

def free (life : BufferLife) (b : Buffer) : BufferLife :=
  { live := life.live.erase b
    released := b :: life.released }

end BufferLife

namespace Engine

/-- Whether the worker frees the buffer of the packet that it has popped. -/
def freesAt (s : Engine) (i now : Nat) : Option Buffer :=
  match (s.pool.workers i).pc with
  | .processing fd (some b) =>
      match fdTableLookup s.fdt fd with
      | some ep => if forwardPacketFrees s.endpoints s.mt ep b.p now then some b else none
      | none => none
  | _ => none

def recordBuffers (s : Engine) (a : EngineAction) (_ : Engine) (life : BufferLife) : BufferLife :=
  match a with
  | .recv fd stale frame => life.malloc (s.nextBuffer fd stale frame)
  | .process i now _ =>
      match s.freesAt i now with
      -- `process_packet` frees the buffer only where `send_packet` does
      | some b => life.free b
      | none => life
  | _ => life

/-- A buffer is in some ring, or held by the dispatcher before its push, or processed by a
worker. -/
def InFlight (s : Engine) (b : Buffer) : Prop :=
  (∃ i, b ∈ (s.pool.workers i).ring.contents) ∨ (∃ i fd, s.pool.dispatcher = .pushing b i fd) ∨
    ∃ i fd, (s.pool.workers i).pc = .processing fd (some b)

/-- The live buffers are those in flight, and all others have been released once. -/
structure Accounted (s : Engine) (life : BufferLife) : Prop where
  live : ∀ b, b ∈ life.live ↔ s.InFlight b
  released : ∀ b ∈ s.received, ¬ s.InFlight b → life.released.count b = 1
  kept : ∀ b, s.InFlight b → life.released.count b = 0

/-- The packet that a worker has popped is for a single port, other than its own, that some
endpoint has. -/
def SendsToOne (s : Engine) (now : Nat) : WorkerPc Buffer → Prop
  | .processing fd (some b) =>
      ∀ ep ∈ fdTableLookup s.fdt fd, SentToOne s.endpoints s.mt ep b.p now
  | _ => True

/-- The condition on a step: it processes no packet but such a one. -/
def Releases (x : Engine × BufferLife) : EngineAction → Prop
  | .process i now _ => x.1.SendsToOne now (x.1.pool.workers i).pc
  | _ => True

instance decidableSendsToOne (s : Engine) (now : Nat) : ∀ pc, Decidable (s.SendsToOne now pc)
  | .processing fd (some b) =>
      inferInstanceAs (Decidable (∀ ep ∈ fdTableLookup s.fdt fd,
        SentToOne s.endpoints s.mt ep b.p now))
  | .processing _ none | .reading | .draining _ => isTrue trivial

instance decidableReleases (x : Engine × BufferLife) : ∀ a, Decidable (Releases x a)
  | .process i now _ =>
      inferInstanceAs (Decidable (x.1.SendsToOne now (x.1.pool.workers i).pc))
  | .recv _ _ _ | .push | .write | .read _ | .pop _ | .control _ _ => isTrue trivial

section Accounts

variable {n : ThreadCount} {pipeSlots : Nat} {s t : Engine} {c : WorkQueues Nat Buffer Fd}
  {a : EngineAction} {life : BufferLife} {b : Buffer}

theorem freesAt_eq {i : Nat} {fd : Int} {ep : Endpoint}
    (hpc : (s.pool.workers i).pc = .processing fd (some b))
    (hep : fdTableLookup s.fdt fd = some ep) (now : Nat) :
    s.freesAt i now = if forwardPacketFrees s.endpoints s.mt ep b.p now then some b else none := by
  simp only [freesAt, hpc, hep]

/-! ## Flight and custody -/

theorem Refines.inFlight_iff (hr : Refines s c) : s.InFlight b ↔ c.InCustody b := by
  refine or_congr ?_ (or_congr ?_ ?_)
  · refine exists_congr fun i => ?_
    rw [(ThreadPool.Refines.worker hr i).contents]
  · refine exists_congr fun i => exists_congr fun fd => ?_
    rw [ThreadPool.Refines.dispatcher hr]
    cases c.producer <;> simp [ThreadPool.dispatcherPc, and_left_comm]
  · refine exists_congr fun i => ?_
    constructor
    · rintro ⟨fd, hpc⟩
      rcases ThreadPool.Refines.server_eq_serving hr hpc with ⟨fd', b', _, hb, hserver⟩
      cases hb
      exact ⟨fd', hserver⟩
    · rintro ⟨fd, hserver⟩
      refine ⟨fd.toInt, ?_⟩
      rw [(ThreadPool.Refines.worker hr i).pc, hserver]
      rfl

/-- No buffer is received twice. -/
theorem Refines.distinct (hr : Refines s c) (hs : ReceiptInv n s) :
    c.Distinct (fun b => b.threadIdx n.val) where
  index := by
    rw [← ThreadPool.Refines.dispatched hr]
    exact hs.index
  nodup := by
    rw [← ThreadPool.Refines.dispatched hr]
    have hseq := hs.seq_pairwise
    -- buffers are numbered as they are received
    refine List.Nodup.of_map Buffer.seq ?_
    rw [List.map_map]
    exact hseq.imp fun hlt => Nat.ne_of_lt hlt

/-- The number of a new buffer is greater than those of the old ones. -/
theorem ReceiptInv.nextBuffer_not_mem (hs : ReceiptInv n s) (fd : Fd) (stale : Packet)
    (frame : Option Frame) : s.nextBuffer fd stale frame ∉ s.received := by
  intro hmem
  have hseq : (s.nextBuffer fd stale frame).seq ∈ List.range s.received.length := by
    rw [← hs.seq]
    exact List.mem_map_of_mem hmem
  have hlt := List.mem_range.1 hseq
  rw [received, List.length_map] at hlt
  exact Nat.lt_irrefl _ hlt

theorem passesOn_labels (hrecv : ∀ fd stale frame, a ≠ .recv fd stale frame)
    (hprocess : ∀ i now sendFails, a ≠ .process i now sendFails) :
    ∀ l ∈ labels n s a, WorkQueues.PassesOn l := by
  intro l hl
  -- only the two actions that are excluded submit a job or finish one
  cases a with
  | recv fd stale frame => exact absurd rfl (hrecv fd stale frame)
  | process i now sendFails => exact absurd rfl (hprocess i now sendFails)
  | control fdt endpoints => cases hl
  | push =>
      simp only [labels, poolAction, ThreadPool.workActions] at hl
      split at hl
      · split at hl
        · rw [List.mem_singleton.1 hl]
          trivial
        · cases hl
      · cases hl
  | pop i =>
      simp only [labels, poolAction, ThreadPool.workActions] at hl
      split at hl
      · split at hl
        · rw [List.mem_singleton.1 hl]
          trivial
        · cases hl
      · rw [List.mem_singleton.1 hl]
        trivial
      · cases hl
  | write =>
      rw [List.mem_singleton.1 hl]
      trivial
  | read i =>
      rw [List.mem_singleton.1 hl]
      trivial

/-! ## What the steps do to the buffers in flight -/

theorem Refines.inFlight_recv (hr : Refines s c) {fd : Fd} {stale : Packet} {frame : Option Frame}
    (h : s.step n pipeSlots (.recv fd stale frame) = some t) :
    t.InFlight b ↔ s.InFlight b ∨ b = s.nextBuffer fd stale frame := by
  rcases hr.sim_step _ h with ⟨d, hrun, hr'⟩
  rw [hr'.inFlight_iff, hr.inFlight_iff]
  exact WorkQueues.inCustody_submit ((Machine.run_singleton _ _ _).symm.trans hrun)

theorem Refines.inFlight_process (hr : Refines s c) (hc : c.Inv) (hs : ReceiptInv n s)
    {i now : Nat} {sendFails : Bool} {fd : Int} {popped : Buffer}
    (hpc : (s.pool.workers i).pc = .processing fd (some popped))
    (h : s.step n pipeSlots (.process i now sendFails) = some t) :
    t.InFlight b ↔ s.InFlight b ∧ b ≠ popped := by
  rcases ThreadPool.Refines.server_eq_serving hr hpc with ⟨fd', b', _, hb, hserver⟩
  cases hb
  rcases hr.sim_step _ h with ⟨d, hrun, hr'⟩
  rw [hr'.inFlight_iff, hr.inFlight_iff]
  exact WorkQueues.inCustody_done hc (hr.distinct hs) hserver
    ((Machine.run_singleton _ _ _).symm.trans hrun)

theorem Refines.inFlight_other (hr : Refines s c)
    (hrecv : ∀ fd stale frame, a ≠ .recv fd stale frame)
    (hprocess : ∀ i now sendFails, a ≠ .process i now sendFails)
    (h : s.step n pipeSlots a = some t) : t.InFlight b ↔ s.InFlight b := by
  rcases hr.sim_step _ h with ⟨d, hrun, hr'⟩
  rw [hr'.inFlight_iff, hr.inFlight_iff]
  exact WorkQueues.inCustody_run (passesOn_labels hrecv hprocess) hrun

/-! ## The account of a run -/

/-- What holds of the account whether or not it is right. -/
structure LifeInv (n : ThreadCount) (x : Engine × BufferLife) : Prop where
  queues : ∃ c, c.Inv ∧ Refines x.1 c
  receipt : ReceiptInv n x.1
  nodup : x.2.live.Nodup
  live : ∀ b ∈ x.2.live, b ∈ x.1.received
  released : ∀ b ∈ x.2.released, b ∈ x.1.received

theorem refines_of_pool_eq (hpool : s.pool = ThreadPool.create) : Refines s WorkQueues.start := by
  rw [Refines, hpool]
  exact ThreadPool.refines_create

theorem lifeInv_of_pool_eq (hpool : s.pool = ThreadPool.create) : LifeInv n (s, .empty) where
  queues := ⟨_, WorkQueues.inv_start, refines_of_pool_eq hpool⟩
  receipt :=
    { index := by rw [hpool]; exact receiptInv_start.index
      tag := by rw [hpool]; exact (receiptInv_start (n := n)).tag
      seq := by rw [received, hpool]; rfl }
  nodup := List.nodup_nil
  live := by
    intro b hb
    cases hb
  released := by
    intro b hb
    cases hb

theorem accounted_of_pool_eq (hpool : s.pool = ThreadPool.create) : s.Accounted .empty := by
  -- the rings are empty, nothing is held, and no worker is busy
  have hnone : ∀ b, ¬ s.InFlight b := by
    intro b
    rw [(refines_of_pool_eq hpool).inFlight_iff]
    exact WorkQueues.not_inCustody_start b
  refine
    { live := ?_
      released := ?_
      kept := ?_ }
  · intro b
    exact iff_of_false List.not_mem_nil (hnone b)
  · intro b hb
    rw [received, hpool] at hb
    cases hb
  · intro b hb
    exact absurd hb (hnone b)

/-- The queues of the next state. -/
theorem LifeInv.queues_step {x : Engine × BufferLife} (hx : LifeInv n x)
    (h : x.1.step n pipeSlots a = some t) : ∃ c, c.Inv ∧ Refines t c := by
  rcases hx.queues with ⟨c, hc, hr⟩
  rcases hr.sim_step a h with ⟨d, hrun, hr'⟩
  exact ⟨d, Machine.invariant_run WorkQueues.Inv (fun _ b _ hu hstep =>
    WorkQueues.inv_step b hu hstep) hc hrun, hr'⟩

/-- A new buffer is live and in flight. -/
theorem LifeInv.recv (hx : LifeInv n (s, life)) (haccounted : s.Accounted life) {fd : Fd}
    {stale : Packet} {frame : Option Frame} (h : s.step n pipeSlots (.recv fd stale frame) = some t) :
    LifeInv n (t, life.malloc (s.nextBuffer fd stale frame)) ∧
      t.Accounted (life.malloc (s.nextBuffer fd stale frame)) := by
  rcases hx.queues with ⟨c, hc, hr⟩
  have hreceived := received_recv h
  have hnew := hx.receipt.nextBuffer_not_mem fd stale frame
  -- what has been received stays so, and the new buffer is received last
  have hold : ∀ {b}, b ∈ s.received → b ∈ t.received := by
    intro b hb
    rw [hreceived]
    exact List.mem_append_left _ hb
  constructor
  · refine
      { queues := hx.queues_step h
        receipt := hx.receipt.step h
        nodup := List.nodup_cons.2 ⟨fun hmem => hnew (hx.live _ hmem), hx.nodup⟩
        live := ?_
        released := fun b hb => hold (hx.released b hb) }
    intro b hb
    rcases List.mem_cons.1 hb with rfl | hlive
    · rw [hreceived]
      exact List.mem_append_right _ List.mem_cons_self
    · exact hold (hx.live b hlive)
  · refine
      { live := ?_
        released := ?_
        kept := ?_ }
    · intro b
      rw [hr.inFlight_recv h, ← haccounted.live b]
      exact List.mem_cons.trans or_comm
    · intro b hb hnot
      rw [hr.inFlight_recv h, not_or] at hnot
      rw [hreceived, List.mem_append, List.mem_singleton] at hb
      exact haccounted.released b (hb.resolve_right hnot.2) hnot.1
    · intro b hb
      rcases (hr.inFlight_recv h).1 hb with hflight | rfl
      · exact haccounted.kept b hflight
      · exact List.count_eq_zero_of_not_mem fun hmem => hnew (hx.released _ hmem)

/-- The account stays right if the buffer that leaves flight is freed. -/
theorem Accounted.free (haccounted : s.Accounted life) (hnodup : life.live.Nodup)
    (hreceived : t.received = s.received) (hflight : ∀ b', t.InFlight b' ↔ s.InFlight b' ∧ b' ≠ b)
    (hb : s.InFlight b) : t.Accounted (life.free b) where
  live := by
    intro b'
    rw [hflight, ← haccounted.live b']
    exact hnodup.mem_erase_iff.trans and_comm
  released := by
    intro b' hb' hnot
    rw [hreceived] at hb'
    rw [hflight, not_and_not_right] at hnot
    -- the buffer that leaves flight is released now, the others have been before
    by_cases heq : b' = b
    · subst heq
      exact (List.count_cons_self).trans (congrArg (· + 1) (haccounted.kept b' hb))
    · have hout : ¬ s.InFlight b' := fun hin => heq (hnot hin)
      exact (List.count_cons_of_ne (Ne.symm heq)).trans (haccounted.released b' hb' hout)
  kept := by
    intro b' hb'
    rcases (hflight b').1 hb' with ⟨hin, hne⟩
    exact (List.count_cons_of_ne hne.symm).trans (haccounted.kept b' hin)

/-- It does not if that buffer stays live. -/
theorem Accounted.not_of_kept (haccounted : s.Accounted life) (hout : ¬ t.InFlight b)
    (hb : s.InFlight b) : ¬ t.Accounted life := by
  intro ht
  exact hout ((ht.live b).1 ((haccounted.live b).2 hb))

/-- The buffer that has been processed is out of flight; the account is right if it is freed. -/
theorem LifeInv.process (hx : LifeInv n (s, life)) (haccounted : s.Accounted life) {i now : Nat}
    {sendFails : Bool} (h : s.step n pipeSlots (.process i now sendFails) = some t) :
    LifeInv n (t, recordBuffers s (.process i now sendFails) t life) ∧
      (t.Accounted (recordBuffers s (.process i now sendFails) t life) ↔
        Releases (s, life) (.process i now sendFails)) := by
  rcases hx.queues with ⟨c, hc, hr⟩
  rcases step_process.1 h with ⟨fd, b, pool, result, hpc, _, hresult, _⟩
  have hreceived : t.received = s.received := received_of_ne_recv (by simp) h
  -- processing takes exactly this buffer out of flight
  have hflight : ∀ {b'}, t.InFlight b' ↔ s.InFlight b' ∧ b' ≠ b :=
    hr.inFlight_process hc hx.receipt hpc h
  have hb : s.InFlight b := Or.inr (Or.inr ⟨i, fd, hpc⟩)
  -- a packet without an endpoint would have ended the process
  have hfound : ∃ ep, fdTableLookup s.fdt fd = some ep := by
    cases hep : fdTableLookup s.fdt fd with
    | none =>
        simp only [processPacket, hep] at hresult
        cases hresult
    | some ep => exact ⟨ep, rfl⟩
  rcases hfound with ⟨ep, hep⟩
  have hreleases : Releases (s, life) (.process i now sendFails) ↔
      SentToOne s.endpoints s.mt ep b.p now := by
    simp only [Releases, SendsToOne, hpc, hep, Option.mem_some_iff, forall_eq']
  rw [hreleases, ← forwardPacketFrees_iff]
  have hfrees := freesAt_eq hpc hep now
  -- freed or not, the buffer is out of flight
  cases hfree : forwardPacketFrees s.endpoints s.mt ep b.p now with
  | false =>
      have hrecord : recordBuffers s (.process i now sendFails) t life = life := by
        simp [recordBuffers, hfrees, hfree]
      rw [hrecord]
      constructor
      · exact
          { queues := hx.queues_step h
            receipt := hx.receipt.step h
            nodup := hx.nodup
            live := by rw [hreceived]; exact hx.live
            released := by rw [hreceived]; exact hx.released }
      · refine iff_of_false ?_ Bool.false_ne_true
        exact haccounted.not_of_kept (fun hin => (hflight.1 hin).2 rfl) hb
  | true =>
      have hrecord : recordBuffers s (.process i now sendFails) t life = life.free b := by
        simp [recordBuffers, hfrees, hfree]
      rw [hrecord]
      have hmem : b ∈ s.received := hx.live b ((haccounted.live b).2 hb)
      constructor
      · refine
          { queues := hx.queues_step h
            receipt := hx.receipt.step h
            nodup := hx.nodup.erase b
            live := ?_
            released := ?_ }
        · intro b' hb'
          rw [hreceived]
          exact hx.live b' (List.mem_of_mem_erase hb')
        · intro b' hb'
          rw [hreceived]
          rcases List.mem_cons.1 hb' with rfl | hold
          · exact hmem
          · exact hx.released b' hold
      · exact iff_of_true (haccounted.free hx.nodup hreceived (fun _ => hflight) hb) rfl

theorem LifeInv.other (hx : LifeInv n (s, life)) (haccounted : s.Accounted life)
    (hrecv : ∀ fd stale frame, a ≠ .recv fd stale frame)
    (hprocess : ∀ i now sendFails, a ≠ .process i now sendFails)
    (h : s.step n pipeSlots a = some t) : LifeInv n (t, life) ∧ t.Accounted life := by
  rcases hx.queues with ⟨c, hc, hr⟩
  have hreceived : t.received = s.received := received_of_ne_recv hrecv h
  have hflight : ∀ {b}, t.InFlight b ↔ s.InFlight b := hr.inFlight_other hrecv hprocess h
  constructor
  · exact
      { queues := hx.queues_step h
        receipt := hx.receipt.step h
        nodup := hx.nodup
        live := by rw [hreceived]; exact hx.live
        released := by rw [hreceived]; exact hx.released }
  · refine
      { live := fun b => (haccounted.live b).trans hflight.symm
        released := ?_
        kept := fun b hb => haccounted.kept b (hflight.1 hb) }
    intro b hb hnot
    rw [hreceived] at hb
    exact haccounted.released b hb fun hin => hnot (hflight.2 hin)

theorem LifeInv.step (hx : LifeInv n (s, life)) (haccounted : s.Accounted life)
    (h : s.step n pipeSlots a = some t) :
    LifeInv n (t, recordBuffers s a t life) ∧
      (t.Accounted (recordBuffers s a t life) ↔ Releases (s, life) a) := by
  cases a with
  | recv fd stale frame =>
      rcases hx.recv haccounted h with ⟨hinv, ht⟩
      exact ⟨hinv, iff_of_true ht trivial⟩
  | process i now sendFails => exact hx.process haccounted h
  | _ =>
      rcases hx.other haccounted (by simp) (by simp) h with ⟨hinv, ht⟩
      exact ⟨hinv, iff_of_true ht trivial⟩

/-- As long as every packet is sent to one endpoint. -/
theorem accounted_of_run {acts : List EngineAction} (hpool : s.pool = ThreadPool.create)
    (hreleases : ((engine n pipeSlots).withHistory recordBuffers).Guarded Releases (s, .empty) acts)
    (hrun : ((engine n pipeSlots).withHistory recordBuffers).run (s, .empty) acts =
      some (t, life)) : LifeInv n (t, life) ∧ t.Accounted life := by
  -- both halves go along: the invariant, and that the account is right so far
  refine Machine.invariant_run_guarded (fun x => LifeInv n x ∧ x.1.Accounted x.2) ?_
    ⟨lifeInv_of_pool_eq hpool, accounted_of_pool_eq hpool⟩ hreleases hrun
  rintro x a y ⟨hx, haccounted⟩ hok hstep
  rcases Machine.withHistory_step.1 hstep with ⟨hmoved, hlife⟩
  have hy := LifeInv.step hx haccounted hmoved
  rw [← hlife] at hy
  exact ⟨hy.1, hy.2.2 hok⟩

/-- In a run of the engine, whatever the tables are at its start, the buffers are accounted for all
along exactly if every packet that is processed is sent to one endpoint. -/
theorem accounted_iff_releases {acts : List EngineAction} (hpool : s.pool = ThreadPool.create)
    (hrun : ((engine n pipeSlots).withHistory recordBuffers).run (s, .empty) acts =
      some (t, life)) :
    ((engine n pipeSlots).withHistory recordBuffers).Always (fun x => x.1.Accounted x.2)
        (s, .empty) acts ↔
      ((engine n pipeSlots).withHistory recordBuffers).Guarded Releases (s, .empty) acts := by
  refine Machine.always_iff_guarded (LifeInv n) (fun x => x.1.Accounted x.2) ?_
    (lifeInv_of_pool_eq hpool) (accounted_of_pool_eq hpool) hrun
  intro x a y hx haccounted hstep
  rcases Machine.withHistory_step.1 hstep with ⟨hmoved, hlife⟩
  have ht := LifeInv.step hx haccounted hmoved
  rw [← hlife] at ht
  exact ht

/-- An empty table sends no packet to one endpoint. -/
theorem not_sentToOne_create (endpoints : List Endpoint) (ep : Endpoint) (p : Packet) (now : Nat) :
    ¬ SentToOne endpoints macTableCreate ep p now := by
  rintro ⟨_, _, _, ep', _, hport⟩
  exact ep'.port_ne_neg_one hport

/-- With an empty table at the start it is enough that one packet is processed. -/
theorem not_process_of_releases {acts : List EngineAction} (hempty : s.mt = macTableCreate)
    (hreleases : ((engine n pipeSlots).withHistory recordBuffers).Guarded Releases (s, life) acts)
    (hrun : ((engine n pipeSlots).withHistory recordBuffers).run (s, life) acts ≠ none) :
    ∀ a ∈ acts, ∀ i now sendFails, a ≠ .process i now sendFails := by
  induction acts generalizing s life with
  | nil =>
      intro a ha
      cases ha
  | cons a acts ih =>
      rcases Option.ne_none_iff_exists'.1 hrun with ⟨y, hy⟩
      rcases Machine.run_cons_eq_some _ |>.1 hy with ⟨⟨t, life'⟩, hstep, hrest⟩
      have hmoved : s.step n pipeSlots a = some t := (Machine.withHistory_step.1 hstep).1
      -- the first packet would have to go to a port that the empty table does not know
      have hfirst : ∀ i now sendFails, a ≠ .process i now sendFails := by
        rintro i now sendFails rfl
        rcases step_process.1 hmoved with ⟨fd, b, pool, result, hpc, _, hresult, _⟩
        cases hep : fdTableLookup s.fdt fd with
        | none =>
            simp only [processPacket, hep] at hresult
            cases hresult
        | some ep =>
            refine not_sentToOne_create s.endpoints ep b.p now ?_
            rw [← hempty]
            have hone : s.SendsToOne now (s.pool.workers i).pc := hreleases.1
            rw [hpc] at hone
            exact hone ep hep
      -- no other step writes the table
      have hsame : t.mt = s.mt := by
        cases a with
        | process i now sendFails => exact absurd rfl (hfirst i now sendFails)
        | control fdt endpoints =>
            cases hmoved
            rfl
        | _ =>
            simp only [Engine.step, poolAction, Option.bind_some, Option.map_eq_some_iff] at hmoved
            rcases hmoved with ⟨pool, _, rfl⟩
            rfl
      intro a' ha'
      rcases List.mem_cons.1 ha' with rfl | hlater
      · exact hfirst
      · refine ih (hsame.trans hempty) (hreleases.2 _ hstep) ?_ a' hlater
        rw [hrest]
        exact Option.some_ne_none y

end Accounts

theorem one_le_maxThreads : 1 ≤ MAX_THREADS := by
  decide

def oneThread : ThreadCount :=
  { val := 1
    pos := le_refl 1
    le_max := one_le_maxThreads }

/-- A packet for port 1, which the table knows, comes in on port 2. -/
def knownStation : Engine :=
  { start with
    fdt := (fdTableInsert fdTableCreate 7 ⟨2, 7⟩ true).2
    endpoints := [⟨2, 7⟩, ⟨1, 8⟩]
    mt := macTableInsert macTableCreate (Packet.zeroed.receive stationFrame).dest VLAN 1 1000 }

/-- One packet on its way through the first worker. -/
def onePacket : List EngineAction :=
  [.recv 7 Packet.zeroed (some stationFrame), .push, .push, .push, .push, .write,
    .read 0, .pop 0, .pop 0, .pop 0, .pop 0]

theorem accounted_iff_releases_known :
    ∃ t life, ((engine oneThread 4).withHistory recordBuffers).run (knownStation, .empty)
        (onePacket ++ [.process 0 1000 false]) = some (t, life) ∧
      life.live = [] ∧ life.released.map Buffer.seq = [0] ∧
      (((engine oneThread 4).withHistory recordBuffers).Always (fun x => x.1.Accounted x.2)
          (knownStation, .empty) (onePacket ++ [.process 0 1000 false]) ↔
        ((engine oneThread 4).withHistory recordBuffers).Guarded Releases (knownStation, .empty)
          (onePacket ++ [.process 0 1000 false])) := by
  have heval : (((engine oneThread 4).withHistory recordBuffers).run (knownStation, .empty)
      (onePacket ++ [.process 0 1000 false])).map
        (fun x => (x.2.live.map Buffer.seq, x.2.released.map Buffer.seq)) = some ([], [0]) := by
    decide +kernel
  rcases Option.map_eq_some_iff.1 heval with ⟨⟨t, life⟩, hrun, hobserve⟩
  rcases Prod.mk.inj hobserve with ⟨hlive, hreleased⟩
  exact ⟨t, life, hrun, List.map_eq_nil_iff.1 hlive, hreleased, accounted_iff_releases rfl hrun⟩

/-- A flooded packet has been processed, and its buffer is still live. -/
theorem not_accounted_flooded :
    ∃ t life, ((engine oneThread 4).withHistory recordBuffers).run (start, .empty) shortFrame =
        some (t, life) ∧ ¬ t.Accounted life := by
  have heval : (((engine oneThread 4).withHistory recordBuffers).run (start, .empty)
      shortFrame.dropLast).map (fun x =>
        (((engine oneThread 4).withHistory recordBuffers).step x (.process 0 1000 false)).isSome &&
          !decide (Releases x (.process 0 1000 false))) = some true := by
    decide +kernel
  have hreleases : ((engine oneThread 4).withHistory recordBuffers).Guarded Releases
      (start, .empty) shortFrame.dropLast := by
    decide +kernel
  rcases Option.map_eq_some_iff.1 heval with ⟨⟨s, life⟩, hrun, hlast⟩
  rw [Bool.and_eq_true_iff, Bool.not_eq_true', decide_eq_false_iff_not] at hlast
  rcases Option.isSome_iff_exists.1 hlast.1 with ⟨⟨t, life'⟩, hstep⟩
  rcases accounted_of_run rfl hreleases hrun with ⟨hinv, haccounted⟩
  rcases Machine.withHistory_step.1 hstep with ⟨hmoved, hlife⟩
  have hprocess : s.step oneThread 4 (.process 0 1000 false) = some t := hmoved
  refine ⟨t, life', ?_, ?_⟩
  · exact Machine.run_append_eq_some _ |>.2 ⟨_, hrun, (Machine.run_singleton _ _ _).trans hstep⟩
  · intro ht
    have hsame : t.Accounted (recordBuffers s (.process 0 1000 false) t life) := hlife ▸ ht
    exact hlast.2 ((hinv.step haccounted hprocess).2.1 hsame)

end Engine

end DataPlane
end EVdeSwitch
