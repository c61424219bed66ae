import EVdeSwitch.Lib.WorkQueues

/-!
# TaggedService — when does a server work under the right tag?

Every item has a tag of its own, `origin item`, under which it should be served, and the producer
submits it with that tag.  Between submission and service the two travel apart.  They meet again
correctly as long as no item is pushed into a queue whose server still has a foreign tag: in its
mailbox, in use, or owed to it.  The condition is exact: from the first push that breaks it, the
server alone can go on to serve that item under the foreign tag.
-/

namespace EVdeSwitch
namespace Lib

universe u v w

namespace WorkQueues

variable {ι : Type u} {β : Type v} {τ : Type w} [DecidableEq ι]
variable {s t : WorkQueues ι β τ} {i : ι} {item : β} {tag : τ}

/-- All tags that server `i` works under, will find in its mailbox, or is owed. -/
def tagsAt (s : WorkQueues ι β τ) (i : ι) : List τ :=
  s.mail i ++ (s.server i).tags ++ s.owed i

theorem mem_tagsAt {u : τ} :
    u ∈ s.tagsAt i ↔ u ∈ s.mail i ∨ u ∈ (s.server i).tags ∨ u ∈ s.owed i := by
  simp [tagsAt]

/-- A non-empty queue always has a tag to be served under. -/
theorem Inv.tagsAt_ne_nil (hs : s.Inv) (hq : s.queue i ≠ []) : s.tagsAt i ≠ [] := by
  cases hserver : s.server i with
  | waiting =>
      -- no wake-up is lost, so there is mail or some is owed
      rcases hs.not_stranded i hserver hq with hmail | howed
      · simp [tagsAt, hmail]
      · simp [tagsAt, howed]
  | draining tag => simp [tagsAt, hserver, ServerState.tags]
  | serving tag item => simp [tagsAt, hserver, ServerState.tags]

variable (origin : β → τ)

/-- The condition on a step: items are submitted with their own tag, and pushed only where no
foreign tag is. -/
def OwnTagOnly (s : WorkQueues ι β τ) : WorkAction ι β τ → Prop
  | .submit _ item tag => tag = origin item
  | .push => ∀ i item tag, s.producer = .pushing i item tag → ∀ u ∈ s.tagsAt i, u = tag
  | _ => True

structure TagInv (s : WorkQueues ι β τ) : Prop where
  inv : s.Inv
  agree : ∀ i, ∀ u ∈ s.tagsAt i, ∀ u' ∈ s.tagsAt i, u = u'
  queued : ∀ i, ∀ u ∈ s.tagsAt i, ∀ item ∈ s.queue i, origin item = u
  pushing : ∀ i item tag, s.producer = .pushing i item tag → tag = origin item
  served : ∀ job ∈ s.served, job.tag = origin job.item

theorem tagInv_start : TagInv origin (start : WorkQueues ι β τ) where
  inv := inv_start
  agree := by
    intro i u hu
    cases hu
  queued := by
    intro i u hu
    cases hu
  pushing := by
    intro i item tag h
    cases h
  served := by
    intro job h
    cases h

variable {origin}

/-- Steps that bring neither a tag nor an item to any server keep the two agreement clauses. -/
theorem TagInv.of_subset (hs : TagInv origin s) (hinv : t.Inv)
    (htags : ∀ i, ∀ u ∈ t.tagsAt i, u ∈ s.tagsAt i)
    (hqueue : ∀ i, ∀ item ∈ t.queue i, item ∈ s.queue i)
    (hpushing : ∀ i item tag, t.producer = .pushing i item tag → tag = origin item)
    (hserved : ∀ job ∈ t.served, job.tag = origin job.item) : TagInv origin t where
  inv := hinv
  agree := fun i u hu u' hu' => hs.agree i u (htags i u hu) u' (htags i u' hu')
  queued := fun i u hu item hitem => hs.queued i u (htags i u hu) item (hqueue i item hitem)
  -- what the producer and the record have to offer is up to the step
  pushing := hpushing
  served := hserved

/-- A server that moves on by itself has no tag that it did not have at hand before. -/
theorem tagsAt_subset_of_server (hmail : ∀ j, j ≠ i → t.mail j = s.mail j)
    (hserver : ∀ j, j ≠ i → t.server j = s.server j) (hproducer : t.producer = s.producer)
    (hi : ∀ u ∈ t.mail i ++ (t.server i).tags, u ∈ s.mail i ++ (s.server i).tags) (j : ι) :
    ∀ u ∈ t.tagsAt j, u ∈ s.tagsAt j := by
  intro u hu
  have howed : t.owed j = s.owed j := by
    rw [owed, owed, hproducer]
  rw [tagsAt, List.mem_append, howed] at hu
  rw [tagsAt, List.mem_append]
  by_cases hj : j = i
  · subst hj
    exact hu.imp (hi u) id
  · -- another server
    rw [hmail j hj, hserver j hj] at hu
    exact hu

theorem tagInv_submit (hs : TagInv origin s) (hok : tag = origin item)
    (h : s.step (.submit i item tag) = some t) : TagInv origin t := by
  have hinv := inv_submit hs.inv h
  rcases step_submit.1 h with ⟨hp, rfl⟩
  refine hs.of_subset hinv ?_ (fun _ _ hitem => hitem) ?_ hs.served
  · intro j u hu
    simpa [mem_tagsAt, owed, hp] using hu
  · intro j item' tag' heq
    cases heq
    exact hok

theorem tagInv_push (hs : TagInv origin s)
    (hok : ∀ i item tag, s.producer = .pushing i item tag → ∀ u ∈ s.tagsAt i, u = tag)
    (h : s.step .push = some t) : TagInv origin t := by
  have hinv := inv_push hs.inv h
  rcases step_push.1 h with ⟨i, item, tag, hp, rfl⟩
  have htag : tag = origin item := hs.pushing i item tag hp
  have hown : ∀ u ∈ s.tagsAt i, u = tag := hok i item tag hp
  -- the tags at `i` afterwards are the old ones and `tag` itself
  have htags : ∀ j, ∀ u ∈ tagsAt { s with
        queue := Function.update s.queue i (s.queue i ++ [item])
        producer := .posting i tag } j, u ∈ s.tagsAt j ∨ (j = i ∧ u = tag) := by
    intro j u hu
    rw [mem_tagsAt] at hu
    -- mailbox and server are not touched, only what is owed is
    rcases hu with hmail | hserver | howed
    · exact Or.inl (mem_tagsAt.2 (Or.inl hmail))
    · exact Or.inl (mem_tagsAt.2 (Or.inr (Or.inl hserver)))
    · by_cases hj : i = j
      · subst hj
        exact Or.inr ⟨rfl, by simpa [owed] using howed⟩
      · simp [owed, hj] at howed
  refine
    { inv := hinv
      agree := ?_
      queued := ?_
      pushing := ?_
      served := hs.served }
  · -- whatever tags are at `i` are `tag`
    intro j u hu u' hu'
    rcases htags j u hu with hold | ⟨rfl, rfl⟩
    · rcases htags j u' hu' with hold' | ⟨rfl, rfl⟩
      · exact hs.agree j u hold u' hold'
      · exact hown u hold
    · rcases htags j u' hu' with hold' | ⟨_, rfl⟩
      · exact (hown u' hold').symm
      · rfl
  · intro j u hu item' hitem
    by_cases hj : j = i
    · subst hj
      have hu' : u = tag := by
        rcases htags j u hu with hold | ⟨_, rfl⟩
        · exact hown u hold
        · rfl
      simp only [Function.update_self, List.mem_append, List.mem_singleton] at hitem
      rcases hitem with hold | rfl
      · -- an item that was there already has a tag at its server, which is `tag`
        rcases List.exists_mem_of_ne_nil _ (hs.inv.tagsAt_ne_nil (List.ne_nil_of_mem hold)) with
          ⟨w, hw⟩
        rw [hs.queued j w hw item' hold, hown w hw, hu']
      · rw [hu', htag]
    · simp only [Function.update_of_ne hj] at hitem
      rcases htags j u hu with hold | ⟨rfl, _⟩
      · exact hs.queued j u hold item' hitem
      · exact absurd rfl hj
  · intro j item' tag' heq
    cases heq

theorem tagInv_post (hs : TagInv origin s) (h : s.step .post = some t) : TagInv origin t := by
  have hinv := inv_post hs.inv h
  rcases step_post.1 h with ⟨i, tag, hp, rfl⟩
  refine hs.of_subset hinv ?_ (fun _ _ hitem => hitem) ?_ hs.served
  · intro j u hu
    by_cases hj : i = j
    · -- the tag that was owed is in the mailbox now
      subst hj
      have howed : s.owed i = [tag] := by
        simp [owed, hp]
      simp only [mem_tagsAt, Function.update_self, List.mem_append, owed, List.not_mem_nil,
        or_false] at hu
      rw [mem_tagsAt, howed]
      rcases hu with (hold | hnew) | hserver
      · exact Or.inl hold
      · exact Or.inr (Or.inr hnew)
      · exact Or.inr (Or.inl hserver)
    · simpa [mem_tagsAt, owed, hp, hj, Function.update_of_ne (Ne.symm hj)] using hu
  · intro j item tag heq
    cases heq

theorem tagInv_take (hs : TagInv origin s) (h : s.step (.take i) = some t) :
    TagInv origin t := by
  have hinv := inv_take hs.inv h
  rcases step_take.1 h with ⟨tag, rest, hserver, hmail, rfl⟩
  refine hs.of_subset hinv ?_ (fun _ _ hitem => hitem) hs.pushing hs.served
  refine tagsAt_subset_of_server (fun _ hj => Function.update_of_ne hj _ _)
    (fun _ hj => Function.update_of_ne hj _ _) rfl ?_
  -- the tag in use is the one that was first in the mailbox
  intro u hu
  simpa [hmail, hserver, ServerState.tags, or_comm] using hu

theorem tagInv_pop (hs : TagInv origin s) (h : s.step (.pop i) = some t) : TagInv origin t := by
  have hinv := inv_pop hs.inv h
  rcases step_pop.1 h with ⟨tag, item, rest, hserver, hqueue, rfl⟩
  have hmem : tag ∈ s.tagsAt i := by
    simp [mem_tagsAt, hserver, ServerState.tags]
  refine hs.of_subset hinv ?_ ?_ hs.pushing ?_
  · refine tagsAt_subset_of_server (fun _ _ => rfl) (fun _ hj => Function.update_of_ne hj _ _) rfl ?_
    -- the server keeps its tag
    intro u hu
    simpa [hserver, ServerState.tags] using hu
  · -- the queue loses its head
    intro j item' hitem
    by_cases hj : j = i
    · subst hj
      simp only [Function.update_self] at hitem
      rw [hqueue]
      exact List.mem_cons_of_mem _ hitem
    · simpa [Function.update_of_ne hj] using hitem
  · -- the head was queued next to the tag it is served under
    intro job hjob
    rcases List.mem_append.1 hjob with hold | hnew
    · exact hs.served job hold
    · cases List.mem_singleton.1 hnew
      exact (hs.queued i tag hmem item (by simp [hqueue])).symm

theorem tagInv_finish (hs : TagInv origin s) (h : s.step (.finish i) = some t) :
    TagInv origin t := by
  have hinv := inv_finish hs.inv h
  rcases step_finish.1 h with ⟨tag, _, _, rfl⟩
  refine hs.of_subset hinv ?_ (fun _ _ hitem => hitem) hs.pushing hs.served
  refine tagsAt_subset_of_server (fun _ _ => rfl) (fun _ hj => Function.update_of_ne hj _ _) rfl ?_
  -- a waiting server has no tag in use
  intro u hu
  simp only [Function.update_self, ServerState.tags, List.append_nil] at hu
  exact List.mem_append_left _ hu

theorem tagInv_done (hs : TagInv origin s) (h : s.step (.done i) = some t) :
    TagInv origin t := by
  have hinv := inv_done hs.inv h
  rcases step_done.1 h with ⟨tag, item, hserver, rfl⟩
  refine hs.of_subset hinv ?_ (fun _ _ hitem => hitem) hs.pushing hs.served
  refine tagsAt_subset_of_server (fun _ _ => rfl) (fun _ hj => Function.update_of_ne hj _ _) rfl ?_
  intro u hu
  simpa [hserver, ServerState.tags] using hu

theorem tagInv_step (a : WorkAction ι β τ) (hs : TagInv origin s) (hok : OwnTagOnly origin s a)
    (h : s.step a = some t) : TagInv origin t := by
  cases a with
  | submit i item tag => exact tagInv_submit hs hok h
  | push => exact tagInv_push hs hok h
  | post => exact tagInv_post hs h
  | take i => exact tagInv_take hs h
  | pop i => exact tagInv_pop hs h
  | finish i => exact tagInv_finish hs h
  | done i => exact tagInv_done hs h

/-- In a run that keeps to the condition, every item is served under its own tag. -/
theorem tagInv_of_guarded {as : List (WorkAction ι β τ)}
    (hguard : (workQueues ι β τ).Guarded (OwnTagOnly origin) start as)
    (h : (workQueues ι β τ).run start as = some s) : TagInv origin s :=
  Machine.invariant_run_guarded (TagInv origin)
    (fun _ a _ hu hok hstep => tagInv_step a hu hok hstep) (tagInv_start origin) hguard h

/-! ## A push next to a foreign tag -/

/-- The steps that server `i` takes on its own. -/
inductive IsService (i : ι) : WorkAction ι β τ → Prop
  | take : IsService i (.take i)
  | pop : IsService i (.pop i)
  | done : IsService i (.done i)

theorem exists_step_take {rest : List τ} (hserver : s.server i = .waiting)
    (hmail : s.mail i = tag :: rest) :
    ∃ t, s.step (.take i) = some t ∧ t.server i = .draining tag ∧ t.queue i = s.queue i :=
  ⟨_, step_take.2 ⟨tag, rest, hserver, hmail, rfl⟩, by simp, rfl⟩

theorem exists_step_pop {rest : List β} (hserver : s.server i = .draining tag)
    (hqueue : s.queue i = item :: rest) :
    ∃ t, s.step (.pop i) = some t ∧ t.server i = .serving tag item ∧ t.queue i = rest ∧
      ⟨i, item, tag⟩ ∈ t.served :=
  ⟨_, step_pop.2 ⟨tag, item, rest, hserver, hqueue, rfl⟩, by simp, by simp, by simp⟩

theorem exists_step_done (hserver : s.server i = .serving tag item) :
    ∃ t, s.step (.done i) = some t ∧ t.server i = .draining tag ∧ t.queue i = s.queue i :=
  ⟨_, step_done.2 ⟨tag, item, hserver, rfl⟩, by simp, rfl⟩

/-- A draining server gets to every item of its queue, under the tag it has. -/
theorem exists_run_drain (q : List β) (hserver : s.server i = .draining tag)
    (hqueue : s.queue i = q ++ [item]) :
    ∃ as t, (∀ a ∈ as, IsService i a) ∧ (workQueues ι β τ).run s as = some t ∧
      ⟨i, item, tag⟩ ∈ t.served := by
  induction q generalizing s with
  | nil =>
      rcases exists_step_pop hserver hqueue with ⟨t, hpop, _, _, hserved⟩
      refine ⟨[.pop i], t, ?_, Machine.run_cons_of_step _ hpop rfl, hserved⟩
      intro a ha
      cases List.mem_singleton.1 ha
      exact .pop
  | cons b q ih =>
      -- the item in front is served first, and dealt with
      rcases exists_step_pop hserver hqueue with ⟨s₁, hpop, hserver₁, hqueue₁, _⟩
      rcases exists_step_done hserver₁ with ⟨s₂, hdone, hserver₂, hqueue₂⟩
      rcases ih hserver₂ (hqueue₂.trans hqueue₁) with ⟨as, t, has, hrun, hserved⟩
      refine ⟨.pop i :: .done i :: as, t, ?_, ?_, hserved⟩
      · intro a ha
        rcases List.mem_cons.1 ha with rfl | ha
        · exact .pop
        · rcases List.mem_cons.1 ha with rfl | ha
          · exact .done
          · exact has a ha
      · exact Machine.run_cons_of_step _ hpop (Machine.run_cons_of_step _ hdone hrun)

/-- A server that has some tag at hand gets to every item of its queue, under one of the tags it
has at hand. -/
theorem exists_run_serve (q : List β) (hqueue : s.queue i = q ++ [item])
    (hnext : s.mail i ≠ [] ∨ s.server i ≠ .waiting) :
    ∃ as t u, (∀ a ∈ as, IsService i a) ∧ (workQueues ι β τ).run s as = some t ∧
      u ∈ s.mail i ++ (s.server i).tags ∧ ⟨i, item, u⟩ ∈ t.served := by
  cases hserver : s.server i with
  | draining u =>
      rcases exists_run_drain q hserver hqueue with ⟨as, t, has, hrun, hserved⟩
      exact ⟨as, t, u, has, hrun, by simp [ServerState.tags], hserved⟩
  | serving u b =>
      -- the server first has to finish with the item at work
      rcases exists_step_done hserver with ⟨s₁, hdone, hserver₁, hqueue₁⟩
      rcases exists_run_drain q hserver₁ (hqueue₁.trans hqueue) with ⟨as, t, has, hrun, hserved⟩
      refine ⟨.done i :: as, t, u, ?_, Machine.run_cons_of_step _ hdone hrun,
        by simp [ServerState.tags], hserved⟩
      intro a ha
      rcases List.mem_cons.1 ha with rfl | ha
      · exact .done
      · exact has a ha
  | waiting =>
      cases hmail : s.mail i with
      | nil => simp [hserver, hmail] at hnext
      | cons u rest =>
          -- it wakes up with the first tag in its mailbox
          rcases exists_step_take hserver hmail with ⟨s₁, htake, hserver₁, hqueue₁⟩
          rcases exists_run_drain q hserver₁ (hqueue₁.trans hqueue) with
            ⟨as, t, has, hrun, hserved⟩
          refine ⟨.take i :: as, t, u, ?_, Machine.run_cons_of_step _ htake hrun, by simp,
            hserved⟩
          intro a ha
          rcases List.mem_cons.1 ha with rfl | ha
          · exact .take
          · exact has a ha

/-- As soon as an item lies in a queue whose server has one foreign tag, server `i` alone can go
on to serve the item under a foreign tag. -/
theorem TagInv.exists_wrong_service (hs : TagInv origin s)
    (hp : s.producer = .pushing i item tag) {u : τ} (hu : u ∈ s.tagsAt i) (hne : u ≠ tag)
    (hpush : s.step .push = some t) :
    ∃ as v, (∀ a ∈ as, IsService i a) ∧ (workQueues ι β τ).run t as = some v ∧
      ∃ job ∈ v.served, job.item = item ∧ job.tag ≠ origin job.item := by
  rcases step_push.1 hpush with ⟨_, _, _, hp', ht⟩
  rw [hp] at hp'
  cases hp'
  have hqueue : t.queue i = s.queue i ++ [item] := by simp [ht]
  have howed : s.owed i = [] := by simp [owed, hp]
  -- the producer was not posting, so the foreign tag is in the mailbox or in use
  have hnext : t.mail i ≠ [] ∨ t.server i ≠ .waiting := by
    by_contra hcon
    simp only [ht] at hcon
    simp only [not_or, not_not] at hcon
    simp [mem_tagsAt, hcon.1, hcon.2, ServerState.tags, howed] at hu
  rcases exists_run_serve (s.queue i) hqueue hnext with ⟨as, v, w, has, hrun, hw, hserved⟩
  refine ⟨as, v, has, hrun, ⟨i, item, w⟩, hserved, rfl, ?_⟩
  -- all the tags at hand are the same foreign one
  have hw' : w ∈ s.tagsAt i := by
    rw [tagsAt, howed, List.append_nil]
    simpa [ht] using hw
  rw [hs.agree i w hw' u hu, ← hs.pushing i item tag hp]
  exact hne

end WorkQueues

end Lib
end EVdeSwitch
