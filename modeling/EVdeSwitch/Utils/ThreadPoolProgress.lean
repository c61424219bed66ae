import Mathlib.Data.PNat.Basic
import EVdeSwitch.Utils.ThreadPoolRefinement

/-!
# ThreadPoolProgress — no lost wake-up between the dispatcher and a worker

A worker may decide that its ring is empty from a stale `head`, and one message may make it drain
the packets of many.  Still no packet is left behind: the message of a packet is written after
its push, so a worker that missed the packet has not read the message yet.
-/

namespace EVdeSwitch
namespace Utils

open EVdeSwitch.Lib

namespace ThreadPool

variable {β : Type} {s : ThreadPool β} {c : WorkQueues Nat β Fd} {i : Nat}

/-- The steps of worker `i`. -/
def workerActions (i : Nat) : List (PoolAction β) :=
  [.read i, .pop i, .processed i]

namespace Refines

theorem queue_ne_nil_iff (hr : Refines s c) :
    c.queue i ≠ [] ↔ (s.workers i).ring.rb.tail ≠ (s.workers i).ring.rb.head := by
  have hw := hr.worker i
  rw [not_iff_not, hw.ring.tail_eq_head_iff, ← Spsc.length_contents, hw.contents,
    List.length_eq_zero_iff]

theorem mail_ne_nil_iff (hr : Refines s c) : c.mail i ≠ [] ↔ (s.workers i).pipe ≠ [] := by
  simp [(hr.worker i).pipe]

theorem exists_writing_of_owed (hr : Refines s c) (h : c.owed i ≠ []) :
    ∃ fd, s.dispatcher = .writing i fd := by
  cases hp : c.producer with
  | posting j fd =>
      by_cases hj : j = i
      · subst hj
        exact ⟨fd, by rw [hr.dispatcher, hp]; rfl⟩
      · simp [WorkQueues.owed, hp, hj] at h
  | _ => simp [WorkQueues.owed, hp] at h

/-- A worker waiting in `read` with a packet in its ring has a message to read, or is about to
get one. -/
theorem not_stranded (hr : Refines s c) (hc : c.Inv) (hpc : (s.workers i).pc = .reading)
    (hring : (s.workers i).ring.rb.tail ≠ (s.workers i).ring.rb.head) :
    (s.workers i).pipe ≠ [] ∨ ∃ fd, s.dispatcher = .writing i fd := by
  have hwaiting := hr.server_eq_waiting hpc
  rcases hc.not_stranded i hwaiting (hr.queue_ne_nil_iff.2 hring) with hmail | howed
  · exact Or.inl (hr.mail_ne_nil_iff.1 hmail)
  · exact Or.inr (hr.exists_writing_of_owed howed)

/-- A push that finds the ring full does not find its worker asleep. -/
theorem awake_of_push_fails (hr : Refines s c) (hc : c.Inv) {packet : β} {fd : Fd}
    {ring : Spsc β} (hd : s.dispatcher = .pushing packet i fd)
    (hstep : (s.workers i).ring.step .pushLoadTail = some ring) (hfails : ring.producer = .idle) :
    ¬((s.workers i).pc = .reading ∧ (s.workers i).pipe = []) := by
  rintro ⟨hpc, hpipe⟩
  have hinv := (hr.worker i).ring
  have hheld : (s.workers i).ring.held = RING_BUFFER_SIZE - 1 := (hinv.push_fails_iff hstep).1 hfails
  -- a full ring is not empty
  have hring : (s.workers i).ring.rb.tail ≠ (s.workers i).ring.rb.head := by
    intro heq
    rw [hinv.tail_eq_head_iff.1 heq] at hheld
    cases hheld
  rcases hr.not_stranded hc hpc hring with hne | ⟨fd', hwriting⟩
  · exact hne hpipe
  · -- the dispatcher cannot be pushing and writing
    rw [hd] at hwriting
    cases hwriting

/-- A worker whose pipe is not empty can take a step. -/
theorem exists_worker_step (hr : Refines s c) {pipeSlots : Nat} (hpipe : (s.workers i).pipe ≠ []) :
    ∃ a ∈ workerActions i, ∃ t, s.step pipeSlots a = some t := by
  have hw := hr.worker i
  cases hpc : (s.workers i).pc with
  -- the message at the head of the pipe is a dispatcher's
  | reading =>
      cases hmail : c.mail i with
      | nil => exact absurd hmail (hr.mail_ne_nil_iff.2 hpipe)
      | cons fd rest =>
          have hmsgs := hw.pipe
          rw [hmail, List.map_cons] at hmsgs
          exact ⟨.read i, by simp [workerActions], _,
            step_read_processPacket hw.running hpc hmsgs⟩
  | draining fd =>
      rcases Spsc.exists_step_nextPop (s.workers i).ring with ⟨ring, hring⟩
      exact ⟨.pop i, by simp [workerActions], _, step_pop.2 ⟨fd, ring, hpc, hring, rfl⟩⟩
  | processing fd p =>
      exact ⟨.processed i, by simp [workerActions], _, step_processed.2 ⟨fd, p, hpc, rfl⟩⟩

end Refines

/-- In every reachable state: no packet is stranded with a sleeping worker, the dispatcher never
spins on a full ring whose worker sleeps on an empty pipe, and a worker whose pipe is full can
move. -/
theorem threadPool_no_lost_wakeup (pipeSlots : ℕ+) (s : ThreadPool β)
    (h : (threadPool β pipeSlots).Reaches create s) (i : Nat) :
    ((s.workers i).pc = .reading →
      (s.workers i).ring.rb.tail ≠ (s.workers i).ring.rb.head →
      (s.workers i).pipe ≠ [] ∨ ∃ fd, s.dispatcher = .writing i fd) ∧
    (∀ packet fd ring, s.dispatcher = .pushing packet i fd →
      (s.workers i).ring.step .pushLoadTail = some ring → ring.producer = .idle →
      ¬((s.workers i).pc = .reading ∧ (s.workers i).pipe = [])) ∧
    ((s.workers i).pipe.length = pipeSlots →
      ∃ a ∈ workerActions i, ∃ t, s.step pipeSlots a = some t) := by
  rcases exists_refines_of_reaches h with ⟨c, hreach, hr⟩
  have hc : c.Inv := WorkQueues.inv_of_reaches hreach
  refine ⟨hr.not_stranded hc, ?_, ?_⟩
  · intro packet fd ring hd hstep hfails
    exact hr.awake_of_push_fails hc hd hstep hfails
  · intro hfull
    refine hr.exists_worker_step ?_
    -- a full pipe is not empty
    intro hnil
    rw [hnil] at hfull
    exact pipeSlots.pos.ne hfull

/-- The first packet after its push and before its message. -/
theorem threadPool_no_lost_wakeup_first :
    ∃ s : ThreadPool Nat,
      (threadPool Nat 1).run create [.dispatch 0 0 5, .push, .push, .push, .push] =
        some s ∧
      (s.workers 0).pc = .reading ∧
      (s.workers 0).ring.rb.tail ≠ (s.workers 0).ring.rb.head ∧
      ((s.workers 0).pipe ≠ [] ∨ ∃ fd, s.dispatcher = .writing 0 fd) := by
  refine ⟨_, rfl, rfl, by decide, ?_⟩
  exact (threadPool_no_lost_wakeup 1 _
    ⟨[.dispatch 0 0 5, .push, .push, .push, .push], rfl⟩ 0).1 rfl (by decide)

end ThreadPool

end Utils
end EVdeSwitch
