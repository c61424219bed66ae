import EVdeSwitch.Utils.Logging
import EVdeSwitch.Utils.ThreadPool

/-!
# ThreadPoolCreate — the workers that a pool starts with

`thread_pool_create` (`src/utils/thread_pool.c`) goes through as many slots as it is told to,
whatever room there is, and leaves out those for which `pipe` fails.  The thread itself has no
part in the slot; what `pthread_create` returns is not looked at.
-/

namespace EVdeSwitch
namespace Utils

/-- `worker_t` in memory; a ring that has not been created is `NULL`. -/
structure WorkerSlot (β : Type) where
  pipe_fd : Fd × Fd
  ring : Option (RingBuffer β)
  running : Bool
  thread_idx : Nat

/-- `thread_pool_t` -/
structure CreatedPool (β : Type) where
  workers : Nat → WorkerSlot β
  num_threads : BitVec 64

namespace WorkerSlot

variable {β : Type}

/-- What `calloc` makes of a slot. -/
def zeroed : WorkerSlot β :=
  { pipe_fd := (0, 0)
    ring := none
    running := false
    thread_idx := 0 }

/-- A worker that can be given packets. -/
def Live (worker : WorkerSlot β) : Prop :=
  worker.ring.isSome = true ∧ worker.running = true

/-- The body of the loop, with what `pipe` returns. -/
def init (worker : WorkerSlot β) (pipe : Option (Fd × Fd)) (i : Nat) : WorkerSlot β :=
  match pipe with
  | none => worker
  | some pipe_fd =>
      { pipe_fd := pipe_fd
        ring := some ringBufferCreate
        running := true
        thread_idx := i }

theorem live_init_iff {pipe : Option (Fd × Fd)} {i : Nat} :
    ((zeroed : WorkerSlot β).init pipe i).Live ↔ pipe.isSome = true := by
  cases pipe <;> simp [init, Live, zeroed]

end WorkerSlot

variable {β : Type}

/-- The loop from slot `i` on, with so many rounds left.  To take a slot behind the array is
undefined behaviour, whatever `pipe` then does with it. -/
def initWorkers (pipe : Nat → Option (Fd × Fd)) (i : Nat) :
    Nat → (Nat → WorkerSlot β) → Except Halt (Nat → WorkerSlot β)
  | 0, workers => .ok workers
  | left + 1, workers =>
      if i < MAX_THREADS then
        initWorkers pipe (i + 1) left
          (Function.update workers i ((workers i).init (pipe i) i))
      else
        .error .crash

/-- `none` is `NULL`. -/
def threadPoolCreate (pipe : Nat → Option (Fd × Fd)) (num_threads : BitVec 64) :
    Except Halt (Option (CreatedPool β)) :=
  if num_threads < 1 then
    (printlog .ERROR "Can't have less than one worker thread").map fun _ => none
  else
    (initWorkers pipe 0 num_threads.toNat fun _ => .zeroed).map fun workers =>
      some
        { workers := workers
          num_threads := num_threads }

/-! ## What the loop does -/

section Loop

variable {pipe : Nat → Option (Fd × Fd)}

theorem initWorkers_of_le {i left : Nat} (h : i + left ≤ MAX_THREADS)
    (workers : Nat → WorkerSlot β) :
    initWorkers pipe i left workers = .ok fun j =>
      if i ≤ j ∧ j < i + left then (workers j).init (pipe j) j else workers j := by
  induction left generalizing i workers with
  | zero =>
      have hnone : ∀ j, ¬ (i ≤ j ∧ j < i + 0) := fun j hj => Nat.not_lt.2 hj.1 hj.2
      exact congrArg Except.ok (funext fun j => (if_neg (hnone j)).symm)
  | succ left ih =>
      have hroom : i < MAX_THREADS := by omega
      rw [initWorkers, if_pos hroom, ih (by omega)]
      refine congrArg Except.ok (funext fun j => ?_)
      by_cases hj : j = i
      · -- the slot of this round is not touched again
        subst hj
        have hdone : ¬ (j + 1 ≤ j ∧ j < j + 1 + left) := by omega
        have hnow : j ≤ j ∧ j < j + (left + 1) := by omega
        rw [if_neg hdone, if_pos hnow, Function.update_self]
      · have hiff : (i + 1 ≤ j ∧ j < i + 1 + left) ↔ (i ≤ j ∧ j < i + (left + 1)) := by omega
        rw [Function.update_of_ne hj]
        simp only [hiff]

theorem initWorkers_of_gt {i left : Nat} (hi : i ≤ MAX_THREADS) (h : MAX_THREADS < i + left)
    (workers : Nat → WorkerSlot β) : initWorkers pipe i left workers = .error .crash := by
  induction left generalizing i workers with
  | zero => exact absurd h (Nat.not_lt.2 hi)
  | succ left ih =>
      by_cases hroom : i < MAX_THREADS
      · rw [initWorkers, if_pos hroom]
        exact ih hroom (by omega) _
      · rw [initWorkers, if_neg hroom]

end Loop

/-! ## What `thread_pool_create` returns -/

section Create

variable {pipe : Nat → Option (Fd × Fd)} {num_threads : BitVec 64}

theorem pos_of_ne_zero (h : num_threads ≠ 0) : ¬ num_threads < 1 := by
  intro hlt
  have hnat : num_threads.toNat < 1 := hlt
  exact h (BitVec.eq_of_toNat_eq (Nat.lt_one_iff.1 hnat))

theorem threadPoolCreate_of_zero :
    (threadPoolCreate pipe 0 : Except Halt (Option (CreatedPool β))) =
      .error (.exit 1 "Can't have less than one worker thread") := rfl

theorem threadPoolCreate_of_le (hpos : num_threads ≠ 0) (h : num_threads.toNat ≤ MAX_THREADS) :
    (threadPoolCreate pipe num_threads : Except Halt (Option (CreatedPool β))) = .ok (some
      { workers := fun j =>
          if j < num_threads.toNat then WorkerSlot.zeroed.init (pipe j) j else .zeroed
        num_threads := num_threads }) := by
  have hle : 0 + num_threads.toNat ≤ MAX_THREADS := by rwa [Nat.zero_add]
  rw [threadPoolCreate, if_neg (pos_of_ne_zero hpos), initWorkers_of_le hle]
  simp [Except.map]

theorem threadPoolCreate_of_gt (h : MAX_THREADS < num_threads.toNat) :
    (threadPoolCreate pipe num_threads : Except Halt (Option (CreatedPool β))) =
      .error .crash := by
  have hpos : num_threads ≠ 0 := by
    rintro rfl
    exact absurd h (by decide)
  have hlt : MAX_THREADS < 0 + num_threads.toNat := by rwa [Nat.zero_add]
  rw [threadPoolCreate, if_neg (pos_of_ne_zero hpos), initWorkers_of_gt (Nat.zero_le _) hlt]
  rfl

end Create

end Utils
end EVdeSwitch
