import Mathlib.Data.List.Basic
import Mathlib.Logic.Function.Basic
import EVdeSwitch.Lib.Machine

/-!
# WorkQueues — one producer, many queues, and a mailbox that wakes each server

The abstract pattern: a producer pushes an item into queue `i` and then posts a tag into the
mailbox of server `i`; server `i` waits for a tag and then serves *everything* it finds in its
queue under that one tag, until the queue is empty.  Items and tags travel separately, and one tag
may serve many items.

Results, for every interleaving:

* nothing is lost, duplicated or reordered in a queue (`Inv.conserved`);
* a waiting server with a non-empty queue has mail, or is about to get some
  (`Inv.not_stranded`);
* an item at work is on record with the tag it is served under (`Inv.serving`).

When an item is served under its own tag is the subject of `Lib.TaggedService`.
-/

namespace EVdeSwitch
namespace Lib

universe u v w

/-- Where the producer is between taking an item and posting its tag. -/
inductive ProducerState (ι : Type u) (β : Type v) (τ : Type w)
  | idle
  | pushing (i : ι) (item : β) (tag : τ)
  | posting (i : ι) (tag : τ)

inductive ServerState (β : Type v) (τ : Type w)
  | waiting
  | draining (tag : τ)
  | serving (tag : τ) (item : β)

/-- An item of queue `i`, with the tag it was submitted or served under. -/
structure Job (ι : Type u) (β : Type v) (τ : Type w) where
  index : ι
  item : β
  tag : τ

structure WorkQueues (ι : Type u) (β : Type v) (τ : Type w) where
  queue : ι → List β
  mail : ι → List τ
  server : ι → ServerState β τ
  producer : ProducerState ι β τ
  submitted : List (Job ι β τ)
  served : List (Job ι β τ)

inductive WorkAction (ι : Type u) (β : Type v) (τ : Type w)
  | submit (i : ι) (item : β) (tag : τ)
  | push
  | post
  | take (i : ι)
  | pop (i : ι)
  | finish (i : ι)
  | done (i : ι)

variable {ι : Type u} {β : Type v} {τ : Type w}

/-- The tag a server works under, if it does. -/
def ServerState.tags : ServerState β τ → List τ
  | .waiting => []
  | .draining tag => [tag]
  | .serving tag _ => [tag]

namespace WorkQueues

def start : WorkQueues ι β τ :=
  { queue := fun _ => []
    mail := fun _ => []
    server := fun _ => .waiting
    producer := .idle
    submitted := []
    served := [] }

variable [DecidableEq ι]

def step (s : WorkQueues ι β τ) : WorkAction ι β τ → Option (WorkQueues ι β τ)
  | .submit i item tag =>
      match s.producer with
      | .idle => some { s with
          producer := .pushing i item tag
          submitted := s.submitted ++ [⟨i, item, tag⟩] }
      | _ => none
  | .push =>
      match s.producer with
      | .pushing i item tag => some { s with
          queue := Function.update s.queue i (s.queue i ++ [item])
          producer := .posting i tag }
      | _ => none
  | .post =>
      match s.producer with
      | .posting i tag => some { s with
          mail := Function.update s.mail i (s.mail i ++ [tag])
          producer := .idle }
      | _ => none
  | .take i =>
      match s.server i, s.mail i with
      | .waiting, tag :: rest => some { s with
          mail := Function.update s.mail i rest
          server := Function.update s.server i (.draining tag) }
      | _, _ => none
  | .pop i =>
      match s.server i, s.queue i with
      | .draining tag, item :: rest => some { s with
          queue := Function.update s.queue i rest
          server := Function.update s.server i (.serving tag item)
          served := s.served ++ [⟨i, item, tag⟩] }
      | _, _ => none
  | .finish i =>
      match s.server i, s.queue i with
      | .draining _, [] => some { s with server := Function.update s.server i .waiting }
      | _, _ => none
  | .done i =>
      match s.server i with
      | .serving tag _ => some { s with server := Function.update s.server i (.draining tag) }
      | _ => none

end WorkQueues

variable [DecidableEq ι]

variable (ι β τ) in
def workQueues : Machine (WorkQueues ι β τ) (WorkAction ι β τ) :=
  { step := WorkQueues.step }

namespace WorkQueues

variable {s t : WorkQueues ι β τ} {i : ι} {item : β} {tag : τ}

/-! ## What one step does -/

theorem step_submit :
    s.step (.submit i item tag) = some t ↔
      s.producer = .idle ∧ t = { s with
        producer := .pushing i item tag
        submitted := s.submitted ++ [⟨i, item, tag⟩] } := by
  cases h : s.producer <;> simp [step, h, eq_comm]

theorem step_push :
    s.step .push = some t ↔
      ∃ i item tag, s.producer = .pushing i item tag ∧ t = { s with
        queue := Function.update s.queue i (s.queue i ++ [item])
        producer := .posting i tag } := by
  cases h : s.producer <;> simp [step, h, eq_comm]

theorem step_post :
    s.step .post = some t ↔
      ∃ i tag, s.producer = .posting i tag ∧ t = { s with
        mail := Function.update s.mail i (s.mail i ++ [tag])
        producer := .idle } := by
  cases h : s.producer <;> simp [step, h, eq_comm]

theorem step_take :
    s.step (.take i) = some t ↔
      ∃ tag rest, s.server i = .waiting ∧ s.mail i = tag :: rest ∧ t = { s with
        mail := Function.update s.mail i rest
        server := Function.update s.server i (.draining tag) } := by
  cases hs : s.server i <;> cases hm : s.mail i <;> simp [step, hs, hm, eq_comm]

theorem step_pop :
    s.step (.pop i) = some t ↔
      ∃ tag item rest, s.server i = .draining tag ∧ s.queue i = item :: rest ∧ t = { s with
        queue := Function.update s.queue i rest
        server := Function.update s.server i (.serving tag item)
        served := s.served ++ [⟨i, item, tag⟩] } := by
  cases hs : s.server i <;> cases hq : s.queue i <;> simp [step, hs, hq, eq_comm]

theorem step_finish :
    s.step (.finish i) = some t ↔
      ∃ tag, s.server i = .draining tag ∧ s.queue i = [] ∧
        t = { s with server := Function.update s.server i .waiting } := by
  cases hs : s.server i <;> cases hq : s.queue i <;> simp [step, hs, hq, eq_comm]

theorem step_done :
    s.step (.done i) = some t ↔
      ∃ tag item, s.server i = .serving tag item ∧
        t = { s with server := Function.update s.server i (.draining tag) } := by
  cases hs : s.server i <;> simp [step, hs, eq_comm]

/-! ## The invariant -/

/-- The item the producer has taken for queue `i` but not pushed yet. -/
def pending (s : WorkQueues ι β τ) (i : ι) : List β :=
  match s.producer with
  | .pushing j item _ => if j = i then [item] else []
  | _ => []

/-- The tag the producer still has to post to server `i`. -/
def owed (s : WorkQueues ι β τ) (i : ι) : List τ :=
  match s.producer with
  | .posting j tag => if j = i then [tag] else []
  | _ => []

/-- The items of a list of jobs that belong to queue `i`, in order. -/
def itemsOf (jobs : List (Job ι β τ)) (i : ι) : List β :=
  (jobs.filter (fun job => job.index = i)).map Job.item

@[simp] theorem itemsOf_nil (i : ι) : itemsOf ([] : List (Job ι β τ)) i = [] := rfl

theorem itemsOf_append_singleton (jobs : List (Job ι β τ)) (job : Job ι β τ) (i : ι) :
    itemsOf (jobs ++ [job]) i = itemsOf jobs i ++ if job.index = i then [job.item] else [] := by
  by_cases h : job.index = i <;> simp [itemsOf, h]

structure Inv (s : WorkQueues ι β τ) : Prop where
  /-- What was submitted to a queue has been served, or waits in the queue, or is on its way. -/
  conserved : ∀ i, itemsOf s.served i ++ s.queue i ++ s.pending i = itemsOf s.submitted i
  /-- A waiting server with a non-empty queue has mail, or is owed some. -/
  not_stranded : ∀ i, s.server i = .waiting → s.queue i ≠ [] → s.mail i ≠ [] ∨ s.owed i ≠ []
  /-- The item at work is on record as served. -/
  serving : ∀ i tag item, s.server i = .serving tag item → ⟨i, item, tag⟩ ∈ s.served

theorem inv_start : (start : WorkQueues ι β τ).Inv where
  conserved := fun _ => rfl
  not_stranded := fun _ _ h => absurd rfl h
  serving := by
    intro i tag item h
    cases h

theorem inv_submit (hs : s.Inv) (h : s.step (.submit i item tag) = some t) : t.Inv := by
  rcases step_submit.1 h with ⟨hp, rfl⟩
  refine ⟨?_, ?_, hs.serving⟩
  · -- what is submitted is pending at once
    intro j
    have hc := hs.conserved j
    simp only [pending, hp, List.append_nil] at hc
    simp only [pending, itemsOf_append_singleton, ← hc]
  · intro j hw hq
    simpa [owed, hp] using hs.not_stranded j hw hq

theorem inv_push (hs : s.Inv) (h : s.step .push = some t) : t.Inv := by
  rcases step_push.1 h with ⟨i, item, tag, hp, rfl⟩
  refine ⟨?_, ?_, hs.serving⟩
  · intro j
    have hc := hs.conserved j
    simp only [pending, hp] at hc
    by_cases hj : i = j
    · -- what was pending is the end of the queue now
      subst hj
      simpa [pending] using hc
    · simpa [pending, hj, Function.update_of_ne (Ne.symm hj)] using hc
  · intro j hw hq
    by_cases hj : i = j
    · subst hj
      -- the producer still has to post the tag
      exact Or.inr (by simp [owed])
    · simp only [Function.update_of_ne (Ne.symm hj)] at hq
      simpa [owed, hp, hj] using hs.not_stranded j hw hq

theorem inv_post (hs : s.Inv) (h : s.step .post = some t) : t.Inv := by
  rcases step_post.1 h with ⟨i, tag, hp, rfl⟩
  refine ⟨?_, ?_, hs.serving⟩
  · intro j
    simpa [pending, hp] using hs.conserved j
  · intro j hw hq
    by_cases hj : i = j
    · subst hj
      -- the tag that was owed is in the mailbox now
      exact Or.inl (by simp)
    · simpa [owed, hp, hj, Function.update_of_ne (Ne.symm hj)] using hs.not_stranded j hw hq

/-- A server that moves on by itself keeps the invariant, if it does not go to sleep next to a
queue with items, and is at work on an item that is on record. -/
theorem Inv.of_server (hs : s.Inv) (i : ι) (mail : List τ) (state : ServerState β τ)
    (hwaiting : state = .waiting → s.queue i = [])
    (hserving : ∀ tag item, state = .serving tag item → ⟨i, item, tag⟩ ∈ s.served) :
    Inv { s with
      mail := Function.update s.mail i mail
      server := Function.update s.server i state } where
  conserved := hs.conserved
  not_stranded := by
    intro j hw hq
    by_cases hj : j = i
    · subst hj
      simp only [Function.update_self] at hw
      exact absurd (hwaiting hw) hq
    · -- another server, with its own mail
      simp only [Function.update_of_ne hj] at hw ⊢
      exact hs.not_stranded j hw hq
  serving := by
    intro j tag item hserver
    by_cases hj : j = i
    · subst hj
      simp only [Function.update_self] at hserver
      exact hserving tag item hserver
    · simp only [Function.update_of_ne hj] at hserver
      exact hs.serving j tag item hserver

theorem inv_take (hs : s.Inv) (h : s.step (.take i) = some t) : t.Inv := by
  rcases step_take.1 h with ⟨tag, rest, _, _, rfl⟩
  refine hs.of_server i rest (.draining tag) ?_ ?_
  · intro hstate
    cases hstate
  · intro tag' item hstate
    cases hstate

theorem inv_pop (hs : s.Inv) (h : s.step (.pop i) = some t) : t.Inv := by
  rcases step_pop.1 h with ⟨tag, item, rest, _, hqueue, rfl⟩
  refine ⟨?_, ?_, ?_⟩
  · intro j
    have hc := hs.conserved j
    by_cases hj : i = j
    · subst hj
      -- the item moves from the head of the queue to the end of the record
      rw [hqueue] at hc
      simpa [itemsOf_append_singleton, pending] using hc
    · simpa [itemsOf_append_singleton, pending, hj, Function.update_of_ne (Ne.symm hj)] using hc
  · intro j hw hq
    by_cases hj : j = i
    · -- the server of this queue is at work
      subst hj
      simp at hw
    · simp only [Function.update_of_ne hj] at hw hq
      exact hs.not_stranded j hw hq
  · intro j tag' item' hserver
    by_cases hj : j = i
    · subst hj
      -- what it works on is the last entry of the record
      simp only [Function.update_self, ServerState.serving.injEq] at hserver
      simp [hserver]
    · simp only [Function.update_of_ne hj] at hserver
      exact List.mem_append_left _ (hs.serving j tag' item' hserver)

theorem inv_finish (hs : s.Inv) (h : s.step (.finish i) = some t) : t.Inv := by
  rcases step_finish.1 h with ⟨tag, _, hqueue, rfl⟩
  have hinv := hs.of_server i (s.mail i) .waiting (fun _ => hqueue)
    (fun tag' item hstate => by cases hstate)
  simpa using hinv

theorem inv_done (hs : s.Inv) (h : s.step (.done i) = some t) : t.Inv := by
  rcases step_done.1 h with ⟨tag, item, _, rfl⟩
  have hinv := hs.of_server i (s.mail i) (.draining tag) (fun hstate => by cases hstate)
    (fun tag' item' hstate => by cases hstate)
  simpa using hinv

theorem inv_step (a : WorkAction ι β τ) (hs : s.Inv) (h : s.step a = some t) : t.Inv := by
  cases a with
  | submit i item tag => exact inv_submit hs h
  | push => exact inv_push hs h
  | post => exact inv_post hs h
  | take i => exact inv_take hs h
  | pop i => exact inv_pop hs h
  | finish i => exact inv_finish hs h
  | done i => exact inv_done hs h

theorem inv_of_reaches (h : (workQueues ι β τ).Reaches start s) : s.Inv :=
  h.invariant Inv (fun _ a _ hu hstep => inv_step a hu hstep) inv_start

end WorkQueues

end Lib
end EVdeSwitch
