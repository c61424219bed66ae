import EVdeSwitch.Utils.ThreadPoolRefinement

/-!
# ThreadPoolPushes — what the rings have been given

Every packet that `thread_pool_dispatch_packet` is called with goes into the ring of its worker,
once and in the order of the calls.  Until the push has succeeded it is the packet that the retry
loop is at.
-/

namespace EVdeSwitch
namespace Utils

open EVdeSwitch.Lib

namespace Spsc

variable {α : Type} {s t : Spsc α} {item : α}

theorem nextPop_push (h : s.step s.nextPop = some t) :
    t.pushed = s.pushed ∧ t.pushItem = s.pushItem := by
  cases hc : s.consumer with
  | idle =>
      simp only [nextPop, hc] at h
      rcases step_popLoadTail.1 h with ⟨_, rfl⟩
      exact ⟨rfl, rfl⟩
  | loadedTail tail =>
      simp only [nextPop, hc] at h
      rcases step_popLoadHead.1 h with ⟨_, _, ⟨_, rfl⟩ | ⟨_, rfl⟩⟩ <;> exact ⟨rfl, rfl⟩
  | checked tail =>
      simp only [nextPop, hc] at h
      rcases step_popLoadSlot.1 h with ⟨_, _, rfl⟩
      exact ⟨rfl, rfl⟩
  | loaded tail item =>
      simp only [nextPop, hc] at h
      rcases step_popStoreTail.1 h with ⟨_, _, _, rfl⟩
      exact ⟨rfl, rfl⟩

/-- The store of `head` ends the call with the item in the ring; before it nothing is in. -/
theorem nextPush_push (hitem : ∀ x, s.pushItem = some x → x = item)
    (h : s.step (s.nextPush item) = some t) :
    (∃ head, s.producer = .stored item head ∧ t.pushed = s.pushed ++ [item] ∧
        t.pushItem = none) ∨
      ((∀ x head, s.producer ≠ .stored x head) ∧ t.pushed = s.pushed ∧
        ∀ x, t.pushItem = some x → x = item) := by
  cases hp : s.producer with
  | idle =>
      simp only [nextPush, hp] at h
      rcases step_pushLoadHead.1 h with ⟨_, rfl⟩
      refine Or.inr ⟨by simp, rfl, ?_⟩
      intro x hx
      exact (Option.some.inj hx).symm
  | loadedHead x head =>
      have hx : x = item := hitem x (by simp [pushItem, hp])
      simp only [nextPush, hp] at h
      rcases step_pushLoadTail.1 h with ⟨y, head', hp', ⟨_, rfl⟩ | ⟨_, rfl⟩⟩
      · exact Or.inr ⟨by simp, rfl, by simp [pushItem]⟩
      · rw [hp] at hp'
        cases hp'
        exact Or.inr ⟨by simp, rfl, by simp [pushItem, hx]⟩
  | checked x head =>
      have hx : x = item := hitem x (by simp [pushItem, hp])
      simp only [nextPush, hp] at h
      rcases step_pushStoreSlot.1 h with ⟨y, head', hp', rfl⟩
      rw [hp] at hp'
      cases hp'
      exact Or.inr ⟨by simp, rfl, by simp [pushItem, hx]⟩
  | stored x head =>
      have hx : x = item := hitem x (by simp [pushItem, hp])
      simp only [nextPush, hp] at h
      rcases step_pushStoreHead.1 h with ⟨y, head', hp', rfl⟩
      rw [hp] at hp'
      cases hp'
      subst hx
      exact Or.inl ⟨head, rfl, rfl, rfl⟩

end Spsc

namespace ThreadPool

variable {β : Type} {pipeSlots : Nat} {s t : ThreadPool β}

/-- The packet on its way into the ring of worker `i`. -/
def pushing (s : ThreadPool β) (i : Nat) : List β :=
  match s.dispatcher with
  | .pushing packet j _ => if j = i then [packet] else []
  | _ => []

structure PushInv (s : ThreadPool β) : Prop where
  pushed : ∀ i, (s.workers i).ring.pushed ++ s.pushing i = WorkQueues.itemsOf s.dispatched i
  item : ∀ i x, (s.workers i).ring.pushItem = some x → ∃ fd, s.dispatcher = .pushing x i fd

theorem pushInv_create : PushInv (create : ThreadPool β) where
  pushed := fun _ => rfl
  item := by
    intro i x h
    cases h

/-- A step that neither dispatches nor pushes. -/
theorem PushInv.of_same (hs : s.PushInv) (hdispatcher : t.dispatcher = s.dispatcher)
    (hdispatched : t.dispatched = s.dispatched)
    (hpush : ∀ i, (t.workers i).ring.pushed = (s.workers i).ring.pushed ∧
      (t.workers i).ring.pushItem = (s.workers i).ring.pushItem) : t.PushInv where
  pushed := by
    intro i
    have hpushing : t.pushing i = s.pushing i := by rw [pushing, pushing, hdispatcher]
    rw [(hpush i).1, hpushing, hdispatched]
    exact hs.pushed i
  item := by
    intro i x h
    rw [(hpush i).2] at h
    rw [hdispatcher]
    exact hs.item i x h

theorem push_setWorker {i : Nat} {w : Worker β}
    (h : w.ring.pushed = (s.workers i).ring.pushed ∧
      w.ring.pushItem = (s.workers i).ring.pushItem) (j : Nat) :
    ((s.setWorker i w).workers j).ring.pushed = (s.workers j).ring.pushed ∧
      ((s.setWorker i w).workers j).ring.pushItem = (s.workers j).ring.pushItem := by
  by_cases hj : j = i
  · subst hj
    rw [setWorker_workers_self]
    exact h
  · rw [setWorker_workers_of_ne w hj]
    exact ⟨rfl, rfl⟩

theorem PushInv.dispatch (hs : s.PushInv) {packet : β} {i : Nat} {fd : Fd}
    (h : s.step pipeSlots (.dispatch packet i fd) = some t) : t.PushInv := by
  rcases step_dispatch.1 h with ⟨hidle, rfl⟩
  refine ⟨?_, ?_⟩
  · intro j
    have hpushed := hs.pushed j
    rw [pushing, hidle, List.append_nil] at hpushed
    rw [WorkQueues.itemsOf_append_singleton, ← hpushed]
    rfl
  · -- no push is under way
    intro j x hx
    rcases hs.item j x hx with ⟨fd', hpushing⟩
    rw [hidle] at hpushing
    cases hpushing

theorem PushInv.push (hs : s.PushInv) (h : s.step pipeSlots .push = some t) : t.PushInv := by
  rcases step_push.1 h with ⟨packet, i, fd, ring, hd, hring, rfl⟩
  have hitem : ∀ x, (s.workers i).ring.pushItem = some x → x = packet := by
    intro x hx
    rcases hs.item i x hx with ⟨fd', hpushing⟩
    rw [hd] at hpushing
    cases hpushing
    rfl
  have hpushing : ∀ j, s.pushing j = if i = j then [packet] else [] := by
    intro j
    rw [pushing, hd]
  -- the rings of the other workers are not concerned
  have hother : ∀ j, j ≠ i → (s.workers j).ring.pushItem = none := by
    intro j hj
    cases hx : (s.workers j).ring.pushItem with
    | none => rfl
    | some y =>
        rcases hs.item j y hx with ⟨fd', hpushing'⟩
        rw [hd] at hpushing'
        cases hpushing'
        exact absurd rfl hj
  rcases Spsc.nextPush_push hitem hring with ⟨head, hstored, hpushed, hnone⟩ | ⟨hnot, hpushed, hmore⟩
  · -- the packet is in
    refine ⟨?_, ?_⟩
    · intro j
      have hold := hs.pushed j
      rw [hpushing] at hold
      by_cases hj : j = i
      · subst hj
        simpa [pushing, afterPush, hstored, hpushed] using hold
      · simpa [pushing, afterPush, hstored, hj, Ne.symm hj] using hold
    · intro j x hx
      by_cases hj : j = i
      · subst hj
        simp [hnone] at hx
      · simp [hj, hother j hj] at hx
  · have hafter : afterPush (s.workers i).ring packet i fd = .pushing packet i fd := by
      cases hp : (s.workers i).ring.producer with
      | stored x head => exact absurd hp (hnot x head)
      | _ => simp [afterPush, hp]
    refine ⟨?_, ?_⟩
    · intro j
      have hold := hs.pushed j
      rw [hpushing] at hold
      by_cases hj : j = i
      · subst hj
        simpa [pushing, hafter, hpushed] using hold
      · simpa [pushing, hafter, hj, Ne.symm hj] using hold
    · intro j x hx
      by_cases hj : j = i
      · subst hj
        rw [setWorker_workers_self] at hx
        exact ⟨fd, by rw [hafter, hmore x hx]⟩
      · simp [hj, hother j hj] at hx

theorem PushInv.write (hs : s.PushInv) (h : s.step pipeSlots .write = some t) : t.PushInv := by
  rcases step_write.1 h with ⟨i, fd, hd, _, rfl⟩
  have hpush := push_setWorker (s := s) (i := i)
    (w := { s.workers i with pipe := (s.workers i).pipe ++ [processPacketMessage fd.toInt] })
    ⟨rfl, rfl⟩
  refine ⟨?_, ?_⟩
  · intro j
    have hold := hs.pushed j
    rw [pushing, hd] at hold
    rw [(hpush j).1]
    exact hold
  · intro j x hx
    rw [(hpush j).2] at hx
    rcases hs.item j x hx with ⟨fd', hpushing⟩
    rw [hd] at hpushing
    cases hpushing

/-- A message that is read changes the pipe and the state of the worker. -/
theorem PushInv.read (hs : s.PushInv) {i : Nat} (h : s.step pipeSlots (.read i) = some t) :
    t.PushInv := by
  simp only [step] at h
  split at h
  · split at h
    all_goals
      cases h
      exact hs.of_same rfl rfl (push_setWorker ⟨rfl, rfl⟩)
  · cases h

theorem PushInv.step (hs : s.PushInv) {a : PoolAction β} (h : s.step pipeSlots a = some t) :
    t.PushInv := by
  cases a with
  | dispatch packet i fd => exact hs.dispatch h
  | push => exact hs.push h
  | write => exact hs.write h
  | read i => exact hs.read h
  | pop i =>
      rcases step_pop.1 h with ⟨_, ring, _, hring, rfl⟩
      exact hs.of_same rfl rfl (push_setWorker (Spsc.nextPop_push hring))
  | processed i =>
      rcases step_processed.1 h with ⟨_, _, _, rfl⟩
      exact hs.of_same rfl rfl (push_setWorker ⟨rfl, rfl⟩)

/-- What is in a ring has been dispatched to its worker. -/
theorem PushInv.mem_dispatched (hs : s.PushInv) {i : Nat} {x : β}
    (h : x ∈ (s.workers i).ring.pushed) : ∃ job ∈ s.dispatched, job.item = x := by
  have hmem : x ∈ WorkQueues.itemsOf s.dispatched i := by
    rw [← hs.pushed i]
    exact List.mem_append_left _ h
  rcases List.mem_map.1 hmem with ⟨job, hjob, hitem⟩
  exact ⟨job, (List.mem_filter.1 hjob).1, hitem⟩

/-- Once the call is over, what has been dispatched is in the ring of its worker. -/
theorem PushInv.mem_pushed (hs : s.PushInv) (hidle : s.dispatcher = .idle) {job : Job Nat β Fd}
    (h : job ∈ s.dispatched) : job.item ∈ (s.workers job.index).ring.pushed := by
  have hpushed := hs.pushed job.index
  rw [pushing, hidle, List.append_nil] at hpushed
  rw [hpushed]
  exact List.mem_map.2 ⟨job, List.mem_filter.2 ⟨h, by simp⟩, rfl⟩

end ThreadPool

end Utils
end EVdeSwitch
