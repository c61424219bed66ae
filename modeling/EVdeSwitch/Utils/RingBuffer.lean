import Mathlib.Data.Nat.Bitwise
import Mathlib.Logic.Function.Basic
import EVdeSwitch.Lib.Circular
import EVdeSwitch.Lib.Machine

/-!
# RingBuffer — the packet queue between the dispatcher and one worker

`ring_buffer_push` and `ring_buffer_pop` (`src/utils/queue.c`) run in different threads, without
a lock.  The file has

* the two functions as the code computes them, run alone;
* the machine `spsc`, in which one producer and one consumer execute the same functions split
  into their single loads and stores, in any interleaving;
* the invariant of that machine, and from it that the buffer is a bounded FIFO queue.

The test a thread makes on what it has just loaded is local to it, so it belongs to the step of
that load.
-/

namespace EVdeSwitch
namespace Utils

open EVdeSwitch.Lib

/-! ## `ring.h` -/

def RING_BUFFER_SIZE : Nat := 1024

def BUFFER_MASK : Nat := RING_BUFFER_SIZE - 1

/-- The ring buffer; a slot that holds `none` is one that was never written. -/
structure RingBuffer (α : Type) where
  data : Nat → Option α
  head : Nat
  tail : Nat

variable {α : Type}

def ringBufferCreate : RingBuffer α :=
  { data := fun _ => none
    head := 0
    tail := 0 }

/-! ## `queue.c`, run by one thread alone -/

def ringBufferPush (rb : RingBuffer α) (item : α) : Bool × RingBuffer α :=
  let head := rb.head
  let next_head := (head + 1) &&& BUFFER_MASK
  if next_head = rb.tail then
    -- Buffer full
    (false, rb)
  else
    (true, { rb with data := Function.update rb.data head (some item), head := next_head })

/-- The result is what is stored through `item`; `none` where the function returns `false`. -/
def ringBufferPop (rb : RingBuffer α) : Option (Option α) × RingBuffer α :=
  let tail := rb.tail
  if tail = rb.head then
    -- Buffer empty
    (none, rb)
  else
    (some (rb.data tail), { rb with tail := (tail + 1) &&& BUFFER_MASK })

/-- The difference is taken in `size_t`, which wraps at `2 ^ 64`. -/
def ringBufferSize (rb : RingBuffer α) : Nat :=
  ((rb.head + 2 ^ 64 - rb.tail) % 2 ^ 64) &&& BUFFER_MASK

theorem and_bufferMask (x : Nat) : x &&& BUFFER_MASK = x % RING_BUFFER_SIZE :=
  Nat.and_two_pow_sub_one_eq_mod x 10

/-! ## One producer and one consumer -/

/-- Where the producer is in `ring_buffer_push`, with the locals it holds there. -/
inductive ProducerPc (α : Type)
  | idle
  | loadedHead (item : α) (head : Nat)
  | checked (item : α) (head : Nat)
  | stored (item : α) (head : Nat)
  deriving DecidableEq, Repr

/-- Where the consumer is in `ring_buffer_pop`, with the locals it holds there. -/
inductive ConsumerPc (α : Type)
  | idle
  | loadedTail (tail : Nat)
  | checked (tail : Nat)
  | loaded (tail : Nat) (item : Option α)
  deriving DecidableEq, Repr

/-- The buffer with both threads; `pushed` and `popped` list the items of the calls that have
returned `true`, in the order in which they did. -/
structure Spsc (α : Type) where
  rb : RingBuffer α
  producer : ProducerPc α
  consumer : ConsumerPc α
  pushed : List α
  popped : List (Option α)

inductive SpscAction (α : Type)
  | pushLoadHead (item : α)
  | pushLoadTail
  | pushStoreSlot
  | pushStoreHead
  | popLoadTail
  | popLoadHead
  | popLoadSlot
  | popStoreTail
  deriving DecidableEq, Repr

namespace Spsc

def create : Spsc α :=
  { rb := ringBufferCreate
    producer := .idle
    consumer := .idle
    pushed := []
    popped := [] }

/-- One load or store of one of the two threads. -/
def step (s : Spsc α) : SpscAction α → Option (Spsc α)
  | .pushLoadHead item =>
      match s.producer with
      | .idle => some { s with producer := .loadedHead item s.rb.head }
      | _ => none
  | .pushLoadTail =>
      match s.producer with
      | .loadedHead item head =>
          if (head + 1) &&& BUFFER_MASK = s.rb.tail then
            -- returns false: buffer full
            some { s with producer := .idle }
          else
            some { s with producer := .checked item head }
      | _ => none
  | .pushStoreSlot =>
      match s.producer with
      | .checked item head =>
          some { s with
            rb := { s.rb with data := Function.update s.rb.data head (some item) }
            producer := .stored item head }
      | _ => none
  | .pushStoreHead =>
      match s.producer with
      | .stored item head =>
          -- returns true
          some { s with
            rb := { s.rb with head := (head + 1) &&& BUFFER_MASK }
            producer := .idle
            pushed := s.pushed ++ [item] }
      | _ => none
  | .popLoadTail =>
      match s.consumer with
      | .idle => some { s with consumer := .loadedTail s.rb.tail }
      | _ => none
  | .popLoadHead =>
      match s.consumer with
      | .loadedTail tail =>
          if tail = s.rb.head then
            -- returns false: buffer empty
            some { s with consumer := .idle }
          else
            some { s with consumer := .checked tail }
      | _ => none
  | .popLoadSlot =>
      match s.consumer with
      | .checked tail => some { s with consumer := .loaded tail (s.rb.data tail) }
      | _ => none
  | .popStoreTail =>
      match s.consumer with
      | .loaded tail item =>
          -- returns true
          some { s with
            rb := { s.rb with tail := (tail + 1) &&& BUFFER_MASK }
            consumer := .idle
            popped := s.popped ++ [item] }
      | _ => none

end Spsc

/-- All interleavings of one producer and one consumer. -/
def spsc (α : Type) : Machine (Spsc α) (SpscAction α) :=
  { step := Spsc.step }

namespace Spsc

/-- How many items the buffer holds. -/
def held (s : Spsc α) : Nat :=
  s.pushed.length - s.popped.length

/-- The items the buffer holds, oldest first. -/
def contents (s : Spsc α) : List α :=
  s.pushed.drop s.popped.length

/-- The item of the call of `ring_buffer_push` that is under way. -/
def pushItem (s : Spsc α) : Option α :=
  match s.producer with
  | .idle => none
  | .loadedHead item _ => some item
  | .checked item _ => some item
  | .stored item _ => some item

/-- The next load or store of `ring_buffer_push(rb, item)`. -/
def nextPush (s : Spsc α) (item : α) : SpscAction α :=
  match s.producer with
  | .idle => .pushLoadHead item
  | .loadedHead _ _ => .pushLoadTail
  | .checked _ _ => .pushStoreSlot
  | .stored _ _ => .pushStoreHead

/-- The next load or store of `ring_buffer_pop(rb, &item)`. -/
def nextPop (s : Spsc α) : SpscAction α :=
  match s.consumer with
  | .idle => .popLoadTail
  | .loadedTail _ => .popLoadHead
  | .checked _ => .popLoadSlot
  | .loaded _ _ => .popStoreTail

/-! ## What one step does -/

variable {s t : Spsc α} {item : α}

theorem step_pushLoadHead :
    s.step (.pushLoadHead item) = some t ↔
      s.producer = .idle ∧ t = { s with producer := .loadedHead item s.rb.head } := by
  cases h : s.producer <;> simp [step, h, eq_comm]

theorem step_pushLoadTail :
    s.step .pushLoadTail = some t ↔
      ∃ item head, s.producer = .loadedHead item head ∧
        (((head + 1) &&& BUFFER_MASK = s.rb.tail ∧ t = { s with producer := .idle }) ∨
          ((head + 1) &&& BUFFER_MASK ≠ s.rb.tail ∧
            t = { s with producer := .checked item head })) := by
  cases h : s.producer with
  | loadedHead item head =>
      by_cases hfull : (head + 1) &&& BUFFER_MASK = s.rb.tail <;> simp [step, h, hfull] <;>
        exact eq_comm
  | _ => simp [step, h]

theorem step_pushStoreSlot :
    s.step .pushStoreSlot = some t ↔
      ∃ item head, s.producer = .checked item head ∧
        t = { s with
          rb := { s.rb with data := Function.update s.rb.data head (some item) }
          producer := .stored item head } := by
  cases h : s.producer <;> simp [step, h, eq_comm]

theorem step_pushStoreHead :
    s.step .pushStoreHead = some t ↔
      ∃ item head, s.producer = .stored item head ∧
        t = { s with
          rb := { s.rb with head := (head + 1) &&& BUFFER_MASK }
          producer := .idle
          pushed := s.pushed ++ [item] } := by
  cases h : s.producer <;> simp [step, h, eq_comm]

theorem step_popLoadTail :
    s.step .popLoadTail = some t ↔
      s.consumer = .idle ∧ t = { s with consumer := .loadedTail s.rb.tail } := by
  cases h : s.consumer <;> simp [step, h, eq_comm]

theorem step_popLoadHead :
    s.step .popLoadHead = some t ↔
      ∃ tail, s.consumer = .loadedTail tail ∧
        ((tail = s.rb.head ∧ t = { s with consumer := .idle }) ∨
          (tail ≠ s.rb.head ∧ t = { s with consumer := .checked tail })) := by
  cases h : s.consumer with
  | loadedTail tail =>
      by_cases hempty : tail = s.rb.head <;> simp [step, h, hempty] <;> exact eq_comm
  | _ => simp [step, h]

theorem step_popLoadSlot :
    s.step .popLoadSlot = some t ↔
      ∃ tail, s.consumer = .checked tail ∧
        t = { s with consumer := .loaded tail (s.rb.data tail) } := by
  cases h : s.consumer <;> simp [step, h, eq_comm]

theorem step_popStoreTail :
    s.step .popStoreTail = some t ↔
      ∃ tail item, s.consumer = .loaded tail item ∧
        t = { s with
          rb := { s.rb with tail := (tail + 1) &&& BUFFER_MASK }
          consumer := .idle
          popped := s.popped ++ [item] } := by
  cases h : s.consumer <;> simp [step, h, eq_comm]

/-- After its load of `tail`, a pop returns `false` if the index equals `head`. -/
theorem nextPop_idle_iff {tail : Nat} (hc : s.consumer = .loadedTail tail)
    (h : s.step s.nextPop = some t) : t.consumer = .idle ↔ tail = s.rb.head := by
  simp only [nextPop, hc] at h
  rcases step_popLoadHead.1 h with ⟨tail', hc', hcase⟩
  rw [hc] at hc'
  cases hc'
  rcases hcase with ⟨hempty, rfl⟩ | ⟨hne, rfl⟩
  · exact iff_of_true rfl hempty
  · refine iff_of_false ?_ hne
    intro hidle
    cases hidle

/-! ## A call that is not interleaved

The thread makes its own steps only: the load with which the call begins, and those with which it
goes on.
-/

/-- The steps by which the producer goes on with a call. -/
def PushesOn : SpscAction α → Prop
  | .pushLoadTail | .pushStoreSlot | .pushStoreHead => True
  | _ => False

/-- The steps by which the consumer goes on with a call. -/
def PopsOn : SpscAction α → Prop
  | .popLoadHead | .popLoadSlot | .popStoreTail => True
  | _ => False

/-- The state after `ring_buffer_push(rb, item)`. -/
def afterPush (s : Spsc α) (item : α) : Spsc α :=
  { s with
    rb := (ringBufferPush s.rb item).2
    pushed := if (ringBufferPush s.rb item).1 then s.pushed ++ [item] else s.pushed }

/-- The state after `ring_buffer_pop(rb, &item)`. -/
def afterPop (s : Spsc α) : Spsc α :=
  { s with
    rb := (ringBufferPop s.rb).2
    popped := s.popped ++ (ringBufferPop s.rb).1.toList }

variable {a : SpscAction α}

theorem eq_nextPush_of_step (ha : PushesOn a) (h : s.step a = some t) :
    ∃ item, s.pushItem = some item ∧ a = s.nextPush item := by
  cases a with
  | pushLoadTail =>
      rcases step_pushLoadTail.1 h with ⟨item, head, hpc, _⟩
      exact ⟨item, by simp [pushItem, hpc], by simp [nextPush, hpc]⟩
  | pushStoreSlot =>
      rcases step_pushStoreSlot.1 h with ⟨item, head, hpc, _⟩
      exact ⟨item, by simp [pushItem, hpc], by simp [nextPush, hpc]⟩
  | pushStoreHead =>
      rcases step_pushStoreHead.1 h with ⟨item, head, hpc, _⟩
      exact ⟨item, by simp [pushItem, hpc], by simp [nextPush, hpc]⟩
  | pushLoadHead item | popLoadTail | popLoadHead | popLoadSlot | popStoreTail =>
      exact False.elim ha

theorem eq_nextPop_of_step (ha : PopsOn a) (h : s.step a = some t) :
    s.consumer ≠ .idle ∧ a = s.nextPop := by
  cases a with
  | popLoadHead =>
      rcases step_popLoadHead.1 h with ⟨tail, hpc, _⟩
      simp [nextPop, hpc]
  | popLoadSlot =>
      rcases step_popLoadSlot.1 h with ⟨tail, hpc, _⟩
      simp [nextPop, hpc]
  | popStoreTail =>
      rcases step_popStoreTail.1 h with ⟨tail, item, hpc, _⟩
      simp [nextPop, hpc]
  | pushLoadHead item | pushLoadTail | pushStoreSlot | pushStoreHead | popLoadTail =>
      exact False.elim ha

theorem oneAtATime_pushesOn : (spsc α).OneAtATime PushesOn := by
  intro s a b t u ha hb hat hbu
  rcases eq_nextPush_of_step ha hat with ⟨item, hitem, rfl⟩
  rcases eq_nextPush_of_step hb hbu with ⟨item', hitem', rfl⟩
  rw [hitem] at hitem'
  cases hitem'
  rfl

theorem oneAtATime_popsOn : (spsc α).OneAtATime PopsOn := by
  intro s a b t u ha hb hat hbu
  exact (eq_nextPop_of_step ha hat).2.trans (eq_nextPop_of_step hb hbu).2.symm

theorem ended_pushesOn (hidle : s.producer = .idle) : (spsc α).Ended PushesOn s := by
  intro a ha
  by_contra hstep
  rcases Option.ne_none_iff_exists'.1 hstep with ⟨t, ht⟩
  rcases eq_nextPush_of_step ha ht with ⟨item, hitem, _⟩
  simp [pushItem, hidle] at hitem

theorem ended_popsOn (hidle : s.consumer = .idle) : (spsc α).Ended PopsOn s := by
  intro a ha
  by_contra hstep
  rcases Option.ne_none_iff_exists'.1 hstep with ⟨t, ht⟩
  exact (eq_nextPop_of_step ha ht).1 hidle

theorem exists_run_afterPush (s : Spsc α) (item : α) (hidle : s.producer = .idle) :
    ∃ as, (∀ a ∈ as, PushesOn a) ∧
      (spsc α).run s (.pushLoadHead item :: as) = some (s.afterPush item) := by
  by_cases hfull : (s.rb.head + 1) &&& BUFFER_MASK = s.rb.tail
  · -- the call returns after its two loads
    refine ⟨[.pushLoadTail], by simp [PushesOn], ?_⟩
    simp [Machine.run_cons, spsc, step, afterPush, ringBufferPush, hidle, hfull]
  · refine ⟨[.pushLoadTail, .pushStoreSlot, .pushStoreHead], by simp [PushesOn], ?_⟩
    simp [Machine.run_cons, spsc, step, afterPush, ringBufferPush, hidle, hfull]

theorem exists_run_afterPop (s : Spsc α) (hidle : s.consumer = .idle) :
    ∃ as, (∀ a ∈ as, PopsOn a) ∧ (spsc α).run s (.popLoadTail :: as) = some s.afterPop := by
  by_cases hempty : s.rb.tail = s.rb.head
  · -- the call returns after its two loads
    refine ⟨[.popLoadHead], by simp [PopsOn], ?_⟩
    simp [Machine.run_cons, spsc, step, afterPop, ringBufferPop, hidle, hempty]
  · refine ⟨[.popLoadHead, .popLoadSlot, .popStoreTail], by simp [PopsOn], ?_⟩
    simp [Machine.run_cons, spsc, step, afterPop, ringBufferPop, hidle, hempty]

/-- The producer's own steps compute `ring_buffer_push`: its runs are the beginnings of one run,
and that one ends with the result of the function. -/
theorem exists_run_push (s : Spsc α) (item : α) (hidle : s.producer = .idle) :
    ∃ as, (∀ a ∈ as, PushesOn a) ∧
      (spsc α).run s (.pushLoadHead item :: as) = some (s.afterPush item) ∧
      ∀ as' t, (∀ a ∈ as', PushesOn a) → (spsc α).run s (.pushLoadHead item :: as') = some t →
        as' <+: as ∧ (t.producer = .idle → t = s.afterPush item) := by
  rcases exists_run_afterPush s item hidle with ⟨as, has, hrun⟩
  refine ⟨as, has, hrun, ?_⟩
  intro as' t has' hrun'
  have hend : (spsc α).Ended PushesOn (s.afterPush item) := ended_pushesOn hidle
  rcases Machine.ended_unique_cons oneAtATime_pushesOn has hrun hend has' hrun' with ⟨hbegins, hsame⟩
  exact ⟨hbegins, fun ht => hsame (ended_pushesOn ht)⟩

/-- The consumer's own steps compute `ring_buffer_pop` in the same way. -/
theorem exists_run_pop (s : Spsc α) (hidle : s.consumer = .idle) :
    ∃ as, (∀ a ∈ as, PopsOn a) ∧ (spsc α).run s (.popLoadTail :: as) = some s.afterPop ∧
      ∀ as' t, (∀ a ∈ as', PopsOn a) → (spsc α).run s (.popLoadTail :: as') = some t →
        as' <+: as ∧ (t.consumer = .idle → t = s.afterPop) := by
  rcases exists_run_afterPop s hidle with ⟨as, has, hrun⟩
  refine ⟨as, has, hrun, ?_⟩
  intro as' t has' hrun'
  have hend : (spsc α).Ended PopsOn s.afterPop := ended_popsOn hidle
  rcases Machine.ended_unique_cons oneAtATime_popsOn has hrun hend has' hrun' with ⟨hbegins, hsame⟩
  exact ⟨hbegins, fun ht => hsame (ended_popsOn ht)⟩

end Spsc

end Utils
end EVdeSwitch
