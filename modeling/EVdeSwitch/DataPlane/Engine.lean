import EVdeSwitch.DataPlane.ForwardingEngine
import EVdeSwitch.Utils.ThreadPoolRefinement

/-!
# Engine — the forwarding engine as a machine

The data plane thread in `dispatch_packet`, the workers, and the tables they share.  `recv`, the
hash and the choice of a worker touch nothing that another thread sees, so together they are one
step, which hands the buffer to `thread_pool_dispatch_packet`; from there on every load and store
is a step of its own.  The body of a worker's loop is one step.  The other plane may replace the
endpoints at any time.

The record `sent` holds every call of `send` that the workers make, with the buffer it is for.
-/

namespace EVdeSwitch
namespace DataPlane

open EVdeSwitch.ControlPlane
open EVdeSwitch.Io
open EVdeSwitch.Lib
open EVdeSwitch.Utils

/-- The number of workers, as `thread_pool_t` has room for. -/
structure ThreadCount where
  val : Nat
  pos : 1 ≤ val
  le_max : val ≤ MAX_THREADS

/-- A call of `send`, made while `buffer` is processed. -/
structure Copy where
  buffer : Buffer
  transmission : Transmission
  deriving DecidableEq

structure Engine where
  pool : ThreadPool Buffer
  fdt : FdTable
  endpoints : List Endpoint
  mt : MacTable
  sent : List Copy

inductive EngineAction
  | recv (fd : Fd) (stale : Packet) (frame : Option Frame)
  | push
  | write
  | read (thread_idx : Nat)
  | pop (thread_idx : Nat)
  | process (thread_idx : Nat) (now : Nat) (sendFails : Bool)
  | control (fdt : FdTable) (endpoints : List Endpoint)

namespace Engine

def start : Engine :=
  { pool := ThreadPool.create
    fdt := fdTableCreate
    endpoints := []
    mt := macTableCreate
    sent := [] }

/-- The buffer that the next call of `dispatch_packet` fills. -/
def nextBuffer (s : Engine) (fd : Fd) (stale : Packet) (frame : Option Frame) : Buffer :=
  { seq := s.pool.dispatched.length
    fd := fd
    stale := stale
    frame := frame }

variable (n : ThreadCount) (pipeSlots : Nat)

/-- The part of a step that concerns the pool. -/
def poolAction (s : Engine) : EngineAction → Option (PoolAction Buffer)
  | .recv fd stale frame =>
      let p := s.nextBuffer fd stale frame
      some (.dispatch p (p.threadIdx n.val) fd)
  | .push => some .push
  | .write => some .write
  | .read thread_idx => some (.read thread_idx)
  | .pop thread_idx => some (.pop thread_idx)
  | .process thread_idx _ _ => some (.processed thread_idx)
  | .control _ _ => none

/-- The body of the loop of one worker, with the packet it has popped. -/
def process (s : Engine) (thread_idx now : Nat) (sendFails : Bool) : Option (Except Halt Engine) :=
  match (s.pool.workers thread_idx).pc with
  | .processing fd (some b) =>
      (s.pool.step pipeSlots (.processed thread_idx)).map fun pool =>
        (processPacket s.fdt s.endpoints s.mt fd b.p now sendFails).map fun result =>
          { s with
            pool := pool
            mt := result.1
            sent := s.sent ++ result.2.map fun transmission => ⟨b, transmission⟩ }
  | _ => none

/-- One step; a process that has ended takes none. -/
def step (s : Engine) : EngineAction → Option Engine
  | .process thread_idx now sendFails =>
      (s.process pipeSlots thread_idx now sendFails).bind Except.toOption
  -- the control plane publishes new tables
  | .control fdt endpoints => some { s with fdt := fdt, endpoints := endpoints }
  | a => (s.poolAction n a).bind fun b =>
      (s.pool.step pipeSlots b).map fun pool => { s with pool := pool }

end Engine

/-- All interleavings of the dispatcher, the workers and the control plane's updates. -/
def engine (n : ThreadCount) (pipeSlots : Nat) : Machine Engine EngineAction :=
  { step := Engine.step n pipeSlots }

namespace Engine

variable {n : ThreadCount} {pipeSlots : Nat} {s t : Engine}

/-! ## What one step does -/

theorem step_recv {fd : Fd} {stale : Packet} {frame : Option Frame} :
    s.step n pipeSlots (.recv fd stale frame) = some t ↔
      ∃ pool, s.pool.step pipeSlots (.dispatch (s.nextBuffer fd stale frame)
          ((s.nextBuffer fd stale frame).threadIdx n.val) fd) = some pool ∧
        t = { s with pool := pool } := by
  simp [step, poolAction, eq_comm]

theorem process_eq_some {i now : Nat} {sendFails : Bool} {r : Except Halt Engine} :
    s.process pipeSlots i now sendFails = some r ↔
      ∃ fd b pool, (s.pool.workers i).pc = .processing fd (some b) ∧
        s.pool.step pipeSlots (.processed i) = some pool ∧
        r = (processPacket s.fdt s.endpoints s.mt fd b.p now sendFails).map fun result =>
          { s with
            pool := pool
            mt := result.1
            sent := s.sent ++ result.2.map fun transmission => ⟨b, transmission⟩ } := by
  cases hpc : (s.pool.workers i).pc with
  | processing fd p =>
      cases p with
      -- a pop that returned `true` has stored a pointer
      | none => simp [process, hpc]
      | some b => simp [process, hpc, eq_comm]
  | _ => simp [process, hpc]

theorem step_process {i now : Nat} {sendFails : Bool} :
    s.step n pipeSlots (.process i now sendFails) = some t ↔
      ∃ fd b pool result, (s.pool.workers i).pc = .processing fd (some b) ∧
        s.pool.step pipeSlots (.processed i) = some pool ∧
        processPacket s.fdt s.endpoints s.mt fd b.p now sendFails = .ok result ∧
        t = { s with
          pool := pool
          mt := result.1
          sent := s.sent ++ result.2.map fun transmission => ⟨b, transmission⟩ } := by
  simp only [step, Option.bind_eq_some_iff, process_eq_some]
  constructor
  · rintro ⟨r, ⟨fd, b, pool, hpc, hpool, rfl⟩, ht⟩
    cases hresult : processPacket s.fdt s.endpoints s.mt fd b.p now sendFails with
    | error halt => simp [hresult, Except.map, Except.toOption] at ht
    | ok result =>
        simp only [hresult, Except.map, Except.toOption, Option.some.injEq] at ht
        exact ⟨fd, b, pool, result, hpc, hpool, hresult, ht.symm⟩
  · rintro ⟨fd, b, pool, result, hpc, hpool, hresult, rfl⟩
    refine ⟨_, ⟨fd, b, pool, hpc, hpool, rfl⟩, ?_⟩
    simp [hresult, Except.map, Except.toOption]

/-- Every step is a step of the pool, or leaves the pool alone. -/
theorem step_pool {a : EngineAction} (h : s.step n pipeSlots a = some t) :
    (∃ b, s.poolAction n a = some b ∧ s.pool.step pipeSlots b = some t.pool) ∨
      (s.poolAction n a = none ∧ t.pool = s.pool) := by
  cases a with
  | process i now sendFails =>
      rcases step_process.1 h with ⟨fd, b, pool, result, _, hpool, _, rfl⟩
      exact Or.inl ⟨_, rfl, hpool⟩
  | control fdt endpoints =>
      cases h
      exact Or.inr ⟨rfl, rfl⟩
  -- the other steps are those of the pool
  | _ =>
      simp only [step, poolAction, Option.bind_some, Option.map_eq_some_iff] at h
      rcases h with ⟨pool, hpool, rfl⟩
      exact Or.inl ⟨_, rfl, hpool⟩

/-- Only the control plane replaces the tables of endpoints. -/
theorem step_tables {a : EngineAction} (ha : ∀ fdt endpoints, a ≠ .control fdt endpoints)
    (h : s.step n pipeSlots a = some t) : t.fdt = s.fdt ∧ t.endpoints = s.endpoints := by
  cases a with
  | process i now sendFails =>
      rcases step_process.1 h with ⟨fd, b, pool, result, _, _, _, rfl⟩
      exact ⟨rfl, rfl⟩
  | control fdt endpoints => exact absurd rfl (ha fdt endpoints)
  | _ =>
      simp only [step, poolAction, Option.bind_some, Option.map_eq_some_iff] at h
      rcases h with ⟨pool, _, rfl⟩
      exact ⟨rfl, rfl⟩

/-! ## Runs of the pool -/

/-- The engine's step `a` is the pool's step `b`. -/
def Mirrors (n : ThreadCount) (pipeSlots : Nat) (a : EngineAction) (b : PoolAction Buffer) : Prop :=
  ∀ s : Engine, s.step n pipeSlots a =
    (s.pool.step pipeSlots b).map fun pool => { s with pool := pool }

theorem run_of_mirrors {as : List EngineAction} {bs : List (PoolAction Buffer)}
    (h : List.Forall₂ (Mirrors n pipeSlots) as bs) {pool : ThreadPool Buffer}
    (hrun : (threadPool Buffer pipeSlots).run s.pool bs = some pool) :
    (engine n pipeSlots).run s as = some { s with pool := pool } := by
  induction h generalizing s with
  | nil =>
      cases hrun
      rfl
  | @cons a b as bs hab _ ih =>
      rcases (threadPool Buffer pipeSlots).run_cons_eq_some.1 hrun with ⟨pool₁, hstep, hrest⟩
      have hpool : s.pool.step pipeSlots b = some pool₁ := hstep
      have hfirst : (engine n pipeSlots).step s a = some { s with pool := pool₁ } :=
        (hab s).trans (by rw [hpool]; rfl)
      have hothers : (engine n pipeSlots).run { s with pool := pool₁ } as =
          some { s with pool := pool } := ih hrest
      exact Machine.run_cons_of_step _ hfirst hothers

/-! ## The engine over the work queues -/

/-- How the work queues answer a step of the engine. -/
def labels (n : ThreadCount) (s : Engine) (a : EngineAction) : List (WorkAction Nat Buffer Fd) :=
  match s.poolAction n a with
  | some b => ThreadPool.workActions s.pool b
  | none => []

def Refines (s : Engine) (c : WorkQueues Nat Buffer Fd) : Prop :=
  ThreadPool.Refines s.pool c

theorem refines_start : Refines start WorkQueues.start :=
  ThreadPool.refines_create

theorem Refines.sim_step {c : WorkQueues Nat Buffer Fd} (hr : Refines s c) (a : EngineAction)
    (h : s.step n pipeSlots a = some t) :
    ∃ d, (workQueues Nat Buffer Fd).run c (labels n s a) = some d ∧ Refines t d := by
  rcases step_pool h with ⟨b, hb, hpool⟩ | ⟨hnone, hpool⟩
  · rw [labels, hb]
    exact ThreadPool.Refines.sim_step hr b hpool
  · -- new tables are nothing to the queues
    refine ⟨c, ?_, ?_⟩
    · rw [labels, hnone]
      rfl
    · rw [Refines, hpool]
      exact hr

theorem exists_refines_of_reaches (h : (engine n pipeSlots).Reaches start s) :
    ∃ c, (workQueues Nat Buffer Fd).Reaches WorkQueues.start c ∧ Refines s c := by
  rcases h with ⟨as, has⟩
  rcases Machine.simulation_run Refines (fun _ a _ _ hr hstep => hr.sim_step a hstep)
    refines_start has with ⟨bs, c, hbs, hr⟩
  exact ⟨c, ⟨bs, hbs⟩, hr⟩

/-! ## What has been received -/

/-- The buffers that `dispatch_packet` has handed to the pool, in order. -/
def received (s : Engine) : List Buffer :=
  s.pool.dispatched.map Job.item

/-- Every buffer went to the worker its hash picks, with the descriptor it was received on, and
the buffers are numbered in the order of their receipt. -/
structure ReceiptInv (n : ThreadCount) (s : Engine) : Prop where
  index : ∀ job ∈ s.pool.dispatched, job.index = job.item.threadIdx n.val
  tag : ∀ job ∈ s.pool.dispatched, job.tag = job.item.fd
  seq : s.received.map Buffer.seq = List.range s.received.length

theorem receiptInv_start : ReceiptInv n start where
  index := by
    intro job h
    cases h
  tag := by
    intro job h
    cases h
  seq := rfl

theorem ReceiptInv.recv (hs : ReceiptInv n s) {fd : Fd} {stale : Packet} {frame : Option Frame}
    (h : s.step n pipeSlots (.recv fd stale frame) = some t) : ReceiptInv n t := by
  rcases step_recv.1 h with ⟨pool, hpool, rfl⟩
  have hdispatched := ThreadPool.step_dispatched hpool
  refine
    { index := ?_
      tag := ?_
      seq := ?_ }
  · intro job hjob
    simp only [hdispatched, ThreadPool.dispatchedNow, List.mem_append, List.mem_singleton] at hjob
    rcases hjob with hold | rfl
    · exact hs.index job hold
    · rfl
  · intro job hjob
    simp only [hdispatched, ThreadPool.dispatchedNow, List.mem_append, List.mem_singleton] at hjob
    rcases hjob with hold | rfl
    · exact hs.tag job hold
    · rfl
  · have hseq := hs.seq
    simp only [received, List.length_map] at hseq
    simp [received, hdispatched, ThreadPool.dispatchedNow, hseq, nextBuffer, List.range_succ]

theorem received_recv {fd : Fd} {stale : Packet} {frame : Option Frame}
    (h : s.step n pipeSlots (.recv fd stale frame) = some t) :
    t.received = s.received ++ [s.nextBuffer fd stale frame] := by
  rcases step_recv.1 h with ⟨pool, hpool, rfl⟩
  simp [received, ThreadPool.step_dispatched hpool, ThreadPool.dispatchedNow]

/-- No other step calls `thread_pool_dispatch_packet`. -/
theorem dispatched_of_ne_recv {a : EngineAction} (ha : ∀ fd stale frame, a ≠ .recv fd stale frame)
    (h : s.step n pipeSlots a = some t) : t.pool.dispatched = s.pool.dispatched := by
  rcases step_pool h with ⟨b, hb, hpool⟩ | ⟨_, hpool⟩
  · have hnone : ThreadPool.dispatchedNow b = [] := by
      cases a with
      | recv fd stale frame => exact absurd rfl (ha fd stale frame)
      | control fdt endpoints => cases hb
      | _ =>
          cases hb
          rfl
    rw [ThreadPool.step_dispatched hpool, hnone, List.append_nil]
  · rw [hpool]

theorem received_of_ne_recv {a : EngineAction} (ha : ∀ fd stale frame, a ≠ .recv fd stale frame)
    (h : s.step n pipeSlots a = some t) : t.received = s.received := by
  rw [received, received, dispatched_of_ne_recv ha h]

theorem ReceiptInv.step (hs : ReceiptInv n s) {a : EngineAction}
    (h : s.step n pipeSlots a = some t) : ReceiptInv n t := by
  cases a with
  | recv fd stale frame => exact hs.recv h
  | _ =>
      have hsame : t.pool.dispatched = s.pool.dispatched := dispatched_of_ne_recv (by simp) h
      have hreceived : t.received = s.received := received_of_ne_recv (by simp) h
      exact
        { index := by rw [hsame]; exact hs.index
          tag := by rw [hsame]; exact hs.tag
          seq := by rw [hreceived]; exact hs.seq }

theorem receiptInv_of_reaches (h : (engine n pipeSlots).Reaches start s) : ReceiptInv n s :=
  h.invariant (ReceiptInv n) (fun _ _ _ hs hstep => hs.step hstep) receiptInv_start

end Engine

end DataPlane
end EVdeSwitch
