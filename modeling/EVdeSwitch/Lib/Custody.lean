import EVdeSwitch.Lib.ServiceOrder

/-!
# Custody — who holds an item

From its submission until its server has done with it an item is held by the producer, by a queue
or by a server.  Submission is the only step that brings an item into custody, and the end of its
service the only one that ends it; as long as no item is submitted twice, it then ends for good.
-/

namespace EVdeSwitch
namespace Lib

universe u v w

namespace WorkQueues

variable {ι : Type u} {β : Type v} {τ : Type w}

/-- Some party holds the item. -/
def InCustody (s : WorkQueues ι β τ) (x : β) : Prop :=
  (∃ i, x ∈ s.queue i) ∨ (∃ i tag, s.producer = .pushing i x tag) ∨
    ∃ i tag, s.server i = .serving tag x

/-- No item is submitted twice, and an item determines its queue. -/
structure Distinct (index : β → ι) (s : WorkQueues ι β τ) : Prop where
  index : ∀ job ∈ s.submitted, job.index = index job.item
  nodup : (s.submitted.map Job.item).Nodup

theorem not_inCustody_start (x : β) : ¬ (start : WorkQueues ι β τ).InCustody x := by
  rintro (⟨i, hx⟩ | ⟨i, tag, hx⟩ | ⟨i, tag, hx⟩)
  · cases hx
  · cases hx
  · cases hx

variable [DecidableEq ι] {s t : WorkQueues ι β τ} {i : ι} {item x : β} {tag : τ} {index : β → ι}

theorem exists_iff_self_or_ne {p : ι → Prop} (i : ι) : (∃ j, p j) ↔ p i ∨ ∃ j, j ≠ i ∧ p j := by
  constructor
  · rintro ⟨j, hj⟩
    by_cases heq : j = i
    · exact Or.inl (heq ▸ hj)
    · exact Or.inr ⟨j, heq, hj⟩
  · rintro (hi | ⟨j, _, hj⟩)
    · exact ⟨i, hi⟩
    · exact ⟨j, hj⟩

/-- The places of an item, with those of one queue and its server told apart. -/
theorem inCustody_iff (i : ι) :
    s.InCustody x ↔
      (x ∈ s.queue i ∨ ∃ j, j ≠ i ∧ x ∈ s.queue j) ∨ (∃ j tag, s.producer = .pushing j x tag) ∨
        ((∃ tag, s.server i = .serving tag x) ∨ ∃ j, j ≠ i ∧ ∃ tag, s.server j = .serving tag x) :=
  or_congr (exists_iff_self_or_ne i) (or_congr Iff.rfl (exists_iff_self_or_ne i))

theorem inCustody_submit (h : s.step (.submit i item tag) = some t) :
    t.InCustody x ↔ s.InCustody x ∨ x = item := by
  rcases step_submit.1 h with ⟨hidle, rfl⟩
  simp only [InCustody, hidle]
  simp [or_comm, or_left_comm, eq_comm]

/-! ## The steps that pass an item on -/

theorem inCustody_push (h : s.step .push = some t) : t.InCustody x ↔ s.InCustody x := by
  rcases step_push.1 h with ⟨i, item, tag, hpushing, rfl⟩
  rw [inCustody_iff i, inCustody_iff i]
  have hother : ∀ j, j ≠ i ∧ x ∈ Function.update s.queue i (s.queue i ++ [item]) j ↔
      j ≠ i ∧ x ∈ s.queue j :=
    fun j => and_congr_right fun hj => by rw [Function.update_of_ne hj]
  have hproducer : (∃ j tag, s.producer = .pushing j x tag) ↔ x = item := by
    simp [hpushing, eq_comm]
  simp only [hother, hproducer, Function.update_self, List.mem_append, List.mem_singleton]
  simp only [reduceCtorEq, exists_false, false_or]
  simp only [or_assoc, or_left_comm, or_comm]

theorem inCustody_post (h : s.step .post = some t) : t.InCustody x ↔ s.InCustody x := by
  rcases step_post.1 h with ⟨i, tag, hposting, rfl⟩
  simp [InCustody, hposting]

/-- A server that is not at work on an item, before or after. -/
theorem inCustody_server (hbefore : ∀ tag y, s.server i ≠ .serving tag y)
    {state : ServerState β τ} (hafter : ∀ tag y, state ≠ .serving tag y) (mail : ι → List τ) :
    InCustody { s with mail := mail, server := Function.update s.server i state } x ↔
      s.InCustody x := by
  rw [inCustody_iff i, inCustody_iff i]
  have hother : ∀ j, (j ≠ i ∧ ∃ tag, Function.update s.server i state j = .serving tag x) ↔
      j ≠ i ∧ ∃ tag, s.server j = .serving tag x :=
    fun j => and_congr_right fun hj => by rw [Function.update_of_ne hj]
  simp only [hother, Function.update_self, hbefore, hafter]

theorem inCustody_take (h : s.step (.take i) = some t) : t.InCustody x ↔ s.InCustody x := by
  rcases step_take.1 h with ⟨tag, rest, hwaiting, _, rfl⟩
  exact inCustody_server (by simp [hwaiting]) (by simp) _

theorem inCustody_finish (h : s.step (.finish i) = some t) : t.InCustody x ↔ s.InCustody x := by
  rcases step_finish.1 h with ⟨tag, hdraining, _, rfl⟩
  exact inCustody_server (by simp [hdraining]) (by simp) _

theorem inCustody_pop (h : s.step (.pop i) = some t) : t.InCustody x ↔ s.InCustody x := by
  rcases step_pop.1 h with ⟨tag, item, rest, hdraining, hqueue, rfl⟩
  rw [inCustody_iff i, inCustody_iff i]
  have hqueues : ∀ j, j ≠ i ∧ x ∈ Function.update s.queue i rest j ↔ j ≠ i ∧ x ∈ s.queue j :=
    fun j => and_congr_right fun hj => by rw [Function.update_of_ne hj]
  have hservers : ∀ j,
      (j ≠ i ∧ ∃ tag', Function.update s.server i (.serving tag item) j = .serving tag' x) ↔
        j ≠ i ∧ ∃ tag', s.server j = .serving tag' x :=
    fun j => and_congr_right fun hj => by rw [Function.update_of_ne hj]
  have hserving : (∃ tag', ServerState.serving tag item = .serving tag' x) ↔ x = item := by
    simp [eq_comm]
  -- the item goes from the queue to the server
  simp only [hqueues, hservers, hserving, hqueue, hdraining, Function.update_self, List.mem_cons]
  simp only [reduceCtorEq, exists_false, false_or]
  simp only [or_assoc, or_left_comm]

/-- Steps at neither end of an item's way. -/
def PassesOn : WorkAction ι β τ → Prop
  | .submit _ _ _ | .done _ => False
  | .push | .post | .take _ | .pop _ | .finish _ => True

theorem inCustody_run {as : List (WorkAction ι β τ)} (has : ∀ a ∈ as, PassesOn a)
    (h : (workQueues ι β τ).run s as = some t) : t.InCustody x ↔ s.InCustody x := by
  induction as generalizing s with
  | nil =>
      cases h
      exact Iff.rfl
  | cons a as ih =>
      rcases (workQueues ι β τ).run_cons_eq_some.1 h with ⟨u, hu, hrest⟩
      refine (ih (fun b hb => has b (List.mem_cons_of_mem _ hb)) hrest).trans ?_
      have ha := has a List.mem_cons_self
      cases a with
      | submit i item tag => exact absurd ha id
      | push => exact inCustody_push hu
      | post => exact inCustody_post hu
      | take i => exact inCustody_take hu
      | pop i => exact inCustody_pop hu
      | finish i => exact inCustody_finish hu
      | done i => exact absurd ha id

/-! ## The end of a service -/

theorem Distinct.nodup_itemsOf (hd : s.Distinct index) (i : ι) :
    (itemsOf s.submitted i).Nodup :=
  (List.filter_sublist.map Job.item).nodup hd.nodup

theorem Distinct.index_of_mem (hd : s.Distinct index) (hx : x ∈ itemsOf s.submitted i) :
    i = index x := by
  rcases mem_itemsOf.1 hx with ⟨job, hjob, hi, rfl⟩
  rw [← hi]
  exact hd.index job hjob

/-- What has been served is not in a queue or on its way into one. -/
theorem Inv.not_mem_of_served (hs : s.Inv) (hd : s.Distinct index) {j : ι}
    (hx : x ∈ itemsOf s.served i) : x ∉ s.queue j ∧ x ∉ s.pending j := by
  have hi : i = index x := hd.index_of_mem ((hs.served_isPrefix i).subset hx)
  by_cases hj : j = i
  · subst hj
    have hnodup := hd.nodup_itemsOf j
    rw [← hs.conserved j, List.append_assoc, List.nodup_append] at hnodup
    have hdisjoint := hnodup.2.2 x hx
    refine ⟨fun hqueue => ?_, fun hpending => ?_⟩
    · exact hdisjoint x (List.mem_append_left _ hqueue) rfl
    · exact hdisjoint x (List.mem_append_right _ hpending) rfl
  · -- it would belong to another queue
    refine ⟨fun hqueue => hj ?_, fun hpending => hj ?_⟩
    · have hmem : x ∈ itemsOf s.submitted j := by
        rw [← hs.conserved j]
        exact List.mem_append_left _ (List.mem_append_right _ hqueue)
      exact (hd.index_of_mem hmem).trans hi.symm
    · have hmem : x ∈ itemsOf s.submitted j := by
        rw [← hs.conserved j]
        exact List.mem_append_right _ hpending
      exact (hd.index_of_mem hmem).trans hi.symm

theorem inCustody_done (hs : s.Inv) (hd : s.Distinct index) (hserving : s.server i = .serving tag item)
    (h : s.step (.done i) = some t) : t.InCustody x ↔ s.InCustody x ∧ x ≠ item := by
  rcases step_done.1 h with ⟨tag', item', hserving', rfl⟩
  rw [hserving] at hserving'
  cases hserving'
  have hserved : item ∈ itemsOf s.served i :=
    mem_itemsOf.2 ⟨_, hs.serving i tag item hserving, rfl, rfl⟩
  have hi : i = index item := hd.index_of_mem ((hs.served_isPrefix i).subset hserved)
  constructor
  · rintro (⟨j, hx⟩ | ⟨j, tag', hx⟩ | ⟨j, tag', hx⟩)
    · refine ⟨Or.inl ⟨j, hx⟩, ?_⟩
      rintro rfl
      exact (hs.not_mem_of_served hd hserved).1 hx
    · refine ⟨Or.inr (Or.inl ⟨j, tag', hx⟩), ?_⟩
      rintro rfl
      have hpushing : s.producer = .pushing j x tag' := hx
      exact (hs.not_mem_of_served hd (j := j) hserved).2 (by simp [pending, hpushing])
    · by_cases hj : j = i
      · subst hj
        simp at hx
      · simp only [Function.update_of_ne hj] at hx
        refine ⟨Or.inr (Or.inr ⟨j, tag', hx⟩), ?_⟩
        -- two servers do not serve one item
        rintro rfl
        have hserved' : x ∈ itemsOf s.served j :=
          mem_itemsOf.2 ⟨_, hs.serving j tag' x hx, rfl, rfl⟩
        exact hj ((hd.index_of_mem ((hs.served_isPrefix j).subset hserved')).trans hi.symm)
  · rintro ⟨⟨j, hx⟩ | hpushing | ⟨j, tag', hx⟩, hne⟩
    · exact Or.inl ⟨j, hx⟩
    · exact Or.inr (Or.inl hpushing)
    · refine Or.inr (Or.inr ⟨j, tag', ?_⟩)
      have hj : j ≠ i := by
        rintro rfl
        rw [hserving] at hx
        cases hx
        exact hne rfl
      simp only [Function.update_of_ne hj]
      exact hx

end WorkQueues

end Lib
end EVdeSwitch
