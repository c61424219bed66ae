import EVdeSwitch.Lib.WorkQueues

/-!
# ServiceOrder — every server keeps the order of submission

With the items ranked by the order of their submission, each server serves the items of its queue
in increasing rank, without a gap.
-/

namespace EVdeSwitch
namespace Lib

universe u v w

namespace WorkQueues

variable {ι : Type u} {β : Type v} {τ : Type w} [DecidableEq ι]
variable {s : WorkQueues ι β τ} {i : ι}

theorem mem_itemsOf {jobs : List (Job ι β τ)} {item : β} :
    item ∈ itemsOf jobs i ↔ ∃ job ∈ jobs, job.index = i ∧ job.item = item := by
  simp [itemsOf, and_assoc]

theorem Inv.served_isPrefix (hs : s.Inv) (i : ι) :
    itemsOf s.served i <+: itemsOf s.submitted i := by
  refine ⟨s.queue i ++ s.pending i, ?_⟩
  rw [← List.append_assoc]
  exact hs.conserved i

/-- What is served was submitted, to the same queue. -/
theorem Inv.exists_submitted (hs : s.Inv) {job : Job ι β τ} (h : job ∈ s.served) :
    ∃ job' ∈ s.submitted, job'.index = job.index ∧ job'.item = job.item := by
  have hserved : job.item ∈ itemsOf s.served job.index := mem_itemsOf.2 ⟨job, h, rfl, rfl⟩
  exact mem_itemsOf.1 ((hs.served_isPrefix job.index).subset hserved)

section Ranked

variable {rank : β → Nat}

/-- The items of one queue were submitted in increasing rank. -/
theorem itemsOf_pairwise {jobs : List (Job ι β τ)}
    (h : (jobs.map fun job => rank job.item).Pairwise (· < ·)) (i : ι) :
    (itemsOf jobs i).Pairwise (fun a b => rank a < rank b) := by
  rw [List.pairwise_map] at h
  have hfilter := h.filter (fun job => job.index = i)
  exact List.pairwise_map.2 hfilter

/-- Two services by one server are in the order of submission. -/
theorem Inv.served_pairwise (hs : s.Inv)
    (h : (s.submitted.map fun job => rank job.item).Pairwise (· < ·)) :
    s.served.Pairwise (fun a b => a.index = b.index → rank a.item < rank b.item) := by
  rw [List.pairwise_iff_forall_sublist]
  intro a b hab hindex
  -- the two services stay next to each other in the list of their server
  have hitems : [a.item, b.item].Sublist (itemsOf s.served b.index) := by
    have hfilter := (hab.filter (fun job => job.index = b.index)).map Job.item
    simpa [itemsOf, hindex] using hfilter
  -- what is served of a queue is the front of what was submitted to it
  have hserved : (itemsOf s.served b.index).Pairwise (fun a b => rank a < rank b) :=
    (itemsOf_pairwise h b.index).sublist (hs.served_isPrefix b.index).sublist
  have hpair := hserved.sublist hitems
  simpa using hpair

/-- No item is overtaken: what was submitted to the queue of a served item before it has been
served too. -/
theorem Inv.served_of_rank_lt (hs : s.Inv)
    (h : (s.submitted.map fun job => rank job.item).Pairwise (· < ·)) {job job' : Job ι β τ}
    (hserved : job ∈ s.served) (hsubmitted : job' ∈ s.submitted) (hindex : job'.index = job.index)
    (hrank : rank job'.item < rank job.item) :
    ∃ job'' ∈ s.served, job''.index = job.index ∧ job''.item = job'.item := by
  rcases hs.served_isPrefix job.index with ⟨rest, hrest⟩
  have hmem : job'.item ∈ itemsOf s.submitted job.index :=
    mem_itemsOf.2 ⟨job', hsubmitted, hindex, rfl⟩
  have hpairwise := itemsOf_pairwise h job.index
  rw [← hrest] at hmem hpairwise
  rcases List.mem_append.1 hmem with hdone | hlater
  · exact mem_itemsOf.1 hdone
  · -- an item that is still to come has a greater rank than every served one
    have hjob : job.item ∈ itemsOf s.served job.index := mem_itemsOf.2 ⟨job, hserved, rfl, rfl⟩
    have hgt := (List.pairwise_append.1 hpairwise).2.2 job.item hjob job'.item hlater
    exact absurd hgt (Nat.lt_asymm hrank)

end Ranked

end WorkQueues

end Lib
end EVdeSwitch
