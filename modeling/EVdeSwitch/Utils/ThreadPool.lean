import EVdeSwitch.Lib.WorkQueues
import EVdeSwitch.Utils.Spsc
import EVdeSwitch.Utils.Word64

/-!
# ThreadPool — the dispatcher and the worker threads

`thread_pool_dispatch_packet` runs in the data plane thread: it retries `ring_buffer_push` on the
ring of one worker until it succeeds and then writes one message to that worker's pipe.
`worker_thread` blocks in `read`, and for a `MSG_PROCESS_PACKET` message pops packets until its
ring is empty (`src/utils/thread_pool.c`).

The machine `threadPool` interleaves the single loads and stores of all of them.  Packets are
handed over by pointer, so `β` is whatever a `void *` refers to.  The body of the worker's inner
loop is one step here, `processed`; what it does with the packet is the forwarding engine's
business.
-/

namespace EVdeSwitch
namespace Utils

open EVdeSwitch.Lib

/-! ## `thread_pool.h` -/

def MAX_THREADS : Nat := 4

/-- `message_type_t` -/
inductive MessageType
  | MSG_PROCESS_PACKET
  | MSG_SHUTDOWN
  deriving DecidableEq, Repr

def MessageType.toNat : MessageType → Nat
  | .MSG_PROCESS_PACKET => 0
  | .MSG_SHUTDOWN => 1

/-- The case of the worker's `switch` that a value selects; there is no default case. -/
def MessageType.ofWord (x : BitVec 32) : Option MessageType :=
  if x = 0 then some .MSG_PROCESS_PACKET
  else if x = 1 then some .MSG_SHUTDOWN
  else none

/-- `thread_message_t`; its `data` is always `NULL` and never read. -/
structure ThreadMessage where
  type : BitVec 64
  deriving DecidableEq, Repr

/-- The message `thread_pool_dispatch_packet` writes. -/
def processPacketMessage (fd : Int) : ThreadMessage :=
  { type := TO64 (BitVec.ofInt 64 MessageType.MSG_PROCESS_PACKET.toNat) (BitVec.ofInt 64 fd) }

/-- The message `thread_pool_destroy` writes. -/
def shutdownMessage : ThreadMessage :=
  { type := BitVec.ofInt 64 MessageType.MSG_SHUTDOWN.toNat }

/-! ## The threads -/

/-- Where the data plane thread is in `thread_pool_dispatch_packet`. -/
inductive DispatcherPc (β : Type)
  | idle
  | pushing (packet : β) (thread_idx : Nat) (fd : Fd)
  | writing (thread_idx : Nat) (fd : Fd)
  deriving DecidableEq, Repr

/-- Where a worker is: in `read`, in the test of the inner loop, or in its body. -/
inductive WorkerPc (β : Type)
  | reading
  | draining (fd : Int)
  | processing (fd : Int) (p : Option β)
  deriving DecidableEq, Repr

/-- `worker_t`: the ring, the unread messages of the pipe, the flag, and where the thread is. -/
structure Worker (β : Type) where
  ring : Spsc β
  pipe : List ThreadMessage
  running : Bool
  pc : WorkerPc β

/-- A packet popped by a worker, with the `fd` the worker processes it for. -/
structure Popped (β : Type) where
  thread_idx : Nat
  p : Option β
  fd : Int
  deriving DecidableEq, Repr

/-- The pool; `dispatched` and `popped` record the calls of `thread_pool_dispatch_packet` and the
successful pops, in order. -/
structure ThreadPool (β : Type) where
  workers : Nat → Worker β
  dispatcher : DispatcherPc β
  dispatched : List (Job Nat β Fd)
  popped : List (Popped β)

inductive PoolAction (β : Type)
  | dispatch (packet : β) (thread_idx : Nat) (fd : Fd)
  | push
  | write
  | read (thread_idx : Nat)
  | pop (thread_idx : Nat)
  | processed (thread_idx : Nat)
  deriving DecidableEq, Repr

variable {β : Type}

namespace ThreadPool

/-- A pool all of whose workers have been created and have nothing to do. -/
def create : ThreadPool β :=
  { workers := fun _ =>
      { ring := Spsc.create
        pipe := []
        running := true
        pc := .reading }
    dispatcher := .idle
    dispatched := []
    popped := [] }

def setWorker (s : ThreadPool β) (i : Nat) (w : Worker β) : ThreadPool β :=
  { s with workers := Function.update s.workers i w }

/-- The dispatcher leaves the retry loop with the store that makes the push return `true`. -/
def afterPush (ring : Spsc β) (packet : β) (thread_idx : Nat) (fd : Fd) : DispatcherPc β :=
  match ring.producer with
  | .stored _ _ => .writing thread_idx fd
  | _ => .pushing packet thread_idx fd

/-- The worker goes back to `read` when the pop returns `false`, and into the body of the loop
when it returns `true`. -/
def afterPop (ring ring' : Spsc β) (fd : Int) : WorkerPc β :=
  match ring.consumer, ring'.consumer with
  | .loaded _ item, _ => .processing fd item
  | .loadedTail _, .idle => .reading
  | _, _ => .draining fd

/-- What the pop adds to the record of popped packets. -/
def poppedNow (ring : Spsc β) (thread_idx : Nat) (fd : Int) : List (Popped β) :=
  match ring.consumer with
  | .loaded _ item => [⟨thread_idx, item, fd⟩]
  | _ => []

/-- One step of one thread.  `pipeSlots` is the number of messages a pipe has room for: the
dispatcher's `write` blocks while the pipe is full, the worker's `read` while it is empty. -/
def step (pipeSlots : Nat) (s : ThreadPool β) : PoolAction β → Option (ThreadPool β)
  -- the call of `thread_pool_dispatch_packet`
  | .dispatch packet thread_idx fd =>
      match s.dispatcher with
      | .idle => some { s with
          dispatcher := .pushing packet thread_idx fd
          dispatched := s.dispatched ++ [⟨thread_idx, packet, fd⟩] }
      | _ => none
  -- one load or store of the retry loop
  | .push =>
      match s.dispatcher with
      | .pushing packet thread_idx fd =>
          let worker := s.workers thread_idx
          (worker.ring.step (worker.ring.nextPush packet)).map fun ring =>
            { s.setWorker thread_idx { worker with ring := ring } with
              dispatcher := afterPush worker.ring packet thread_idx fd }
      | _ => none
  | .write =>
      match s.dispatcher with
      | .writing thread_idx fd =>
          let worker := s.workers thread_idx
          if worker.pipe.length < pipeSlots then
            let pipe := worker.pipe ++ [processPacketMessage fd.toInt]
            some { s.setWorker thread_idx { worker with pipe := pipe } with dispatcher := .idle }
          else
            none
      | _ => none
  | .read thread_idx =>
      let worker := s.workers thread_idx
      match worker.running, worker.pc, worker.pipe with
      | true, .reading, msg :: rest =>
          let fd := (LO msg.type).toInt
          match MessageType.ofWord (HI msg.type) with
          | some .MSG_PROCESS_PACKET =>
              some (s.setWorker thread_idx { worker with pipe := rest, pc := .draining fd })
          | some .MSG_SHUTDOWN =>
              some (s.setWorker thread_idx { worker with pipe := rest, running := false })
          | none => some (s.setWorker thread_idx { worker with pipe := rest })
      | _, _, _ => none
  | .pop thread_idx =>
      let worker := s.workers thread_idx
      match worker.pc with
      | .draining fd =>
          (worker.ring.step worker.ring.nextPop).map fun ring =>
            { s.setWorker thread_idx
                { worker with ring := ring, pc := afterPop worker.ring ring fd } with
              popped := s.popped ++ poppedNow worker.ring thread_idx fd }
      | _ => none
  -- back to the test of the inner loop, with the same `fd`
  | .processed thread_idx =>
      let worker := s.workers thread_idx
      match worker.pc with
      | .processing fd _ => some (s.setWorker thread_idx { worker with pc := .draining fd })
      | _ => none

end ThreadPool

variable (β) in
/-- All interleavings of the dispatcher and the workers. -/
def threadPool (pipeSlots : Nat) : Machine (ThreadPool β) (PoolAction β) :=
  { step := ThreadPool.step pipeSlots }

namespace ThreadPool

variable {pipeSlots : Nat} {s t : ThreadPool β} {i : Nat}

@[simp] theorem setWorker_dispatcher (i : Nat) (w : Worker β) :
    (s.setWorker i w).dispatcher = s.dispatcher := rfl

@[simp] theorem setWorker_dispatched (i : Nat) (w : Worker β) :
    (s.setWorker i w).dispatched = s.dispatched := rfl

@[simp] theorem setWorker_popped (i : Nat) (w : Worker β) :
    (s.setWorker i w).popped = s.popped := rfl

@[simp] theorem setWorker_workers_self (i : Nat) (w : Worker β) :
    (s.setWorker i w).workers i = w := by
  simp [setWorker]

@[simp] theorem setWorker_workers_of_ne {j : Nat} (w : Worker β) (h : j ≠ i) :
    (s.setWorker i w).workers j = s.workers j := by
  simp [setWorker, h]

/-! ## What one step does -/

theorem step_dispatch {packet : β} {fd : Fd} :
    s.step pipeSlots (.dispatch packet i fd) = some t ↔
      s.dispatcher = .idle ∧ t = { s with
        dispatcher := .pushing packet i fd
        dispatched := s.dispatched ++ [⟨i, packet, fd⟩] } := by
  cases h : s.dispatcher <;> simp [step, h, eq_comm]

theorem step_push :
    s.step pipeSlots .push = some t ↔
      ∃ packet i fd ring, s.dispatcher = .pushing packet i fd ∧
        (s.workers i).ring.step ((s.workers i).ring.nextPush packet) = some ring ∧
        t = { s.setWorker i { s.workers i with ring := ring } with
          dispatcher := afterPush (s.workers i).ring packet i fd } := by
  cases h : s.dispatcher with
  | pushing packet i fd => simp [step, h, eq_comm]
  | _ => simp [step, h]

theorem step_write :
    s.step pipeSlots .write = some t ↔
      ∃ i fd, s.dispatcher = .writing i fd ∧ (s.workers i).pipe.length < pipeSlots ∧
        t = { s.setWorker i { s.workers i with
            pipe := (s.workers i).pipe ++ [processPacketMessage fd.toInt] } with
          dispatcher := .idle } := by
  cases h : s.dispatcher with
  | writing i fd =>
      by_cases hroom : (s.workers i).pipe.length < pipeSlots <;> simp [step, h, hroom, eq_comm]
  | _ => simp [step, h]

theorem step_pop :
    s.step pipeSlots (.pop i) = some t ↔
      ∃ fd ring, (s.workers i).pc = .draining fd ∧
        (s.workers i).ring.step (s.workers i).ring.nextPop = some ring ∧
        t = { s.setWorker i { s.workers i with
            ring := ring
            pc := afterPop (s.workers i).ring ring fd } with
          popped := s.popped ++ poppedNow (s.workers i).ring i fd } := by
  cases h : (s.workers i).pc with
  | draining fd => simp [step, h, eq_comm]
  | _ => simp [step, h]

theorem step_processed :
    s.step pipeSlots (.processed i) = some t ↔
      ∃ fd p, (s.workers i).pc = .processing fd p ∧
        t = s.setWorker i { s.workers i with pc := .draining fd } := by
  cases h : (s.workers i).pc with
  | processing fd p => simp [step, h, eq_comm]
  | _ => simp [step, h]

/-- What a step adds to the record of dispatched packets. -/
def dispatchedNow : PoolAction β → List (Job Nat β Fd)
  | .dispatch packet thread_idx fd => [⟨thread_idx, packet, fd⟩]
  | _ => []

theorem step_dispatched {a : PoolAction β} (h : s.step pipeSlots a = some t) :
    t.dispatched = s.dispatched ++ dispatchedNow a := by
  cases a with
  | dispatch packet i fd =>
      rcases step_dispatch.1 h with ⟨_, rfl⟩
      rfl
  | push =>
      rcases step_push.1 h with ⟨_, _, _, _, _, _, rfl⟩
      simp [dispatchedNow]
  | write =>
      rcases step_write.1 h with ⟨_, _, _, _, rfl⟩
      simp [dispatchedNow]
  | read i =>
      -- no message that is read dispatches anything
      simp only [step] at h
      split at h
      · split at h
        all_goals
          cases h
          simp [dispatchedNow]
      · cases h
  | pop i =>
      rcases step_pop.1 h with ⟨_, _, _, _, rfl⟩
      simp [dispatchedNow]
  | processed i =>
      rcases step_processed.1 h with ⟨_, _, _, rfl⟩
      simp [dispatchedNow]

end ThreadPool

end Utils
end EVdeSwitch
