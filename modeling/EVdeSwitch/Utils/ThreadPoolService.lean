import EVdeSwitch.Utils.ThreadPoolRefinement

/-!
# ThreadPoolService — a worker can do what its server can

The converse of the simulation, for the steps of one worker: if the server of the work queues can
take a tag, or an item, or can finish with an item, then the worker can get there, without any
other thread moving.  A pop takes it as many steps as are left of the call of `ring_buffer_pop`.
-/

namespace EVdeSwitch
namespace Utils

open EVdeSwitch.Lib

namespace ThreadPool

variable {β : Type} {s : ThreadPool β} {c d : WorkQueues Nat β Fd} {i : Nat}

/-- The steps a pop still needs before its last one, if it finds an item. -/
def stepsLeft : ConsumerPc β → Nat
  | .idle => 3
  | .loadedTail _ => 2
  | .checked _ => 1
  | .loaded _ _ => 0

theorem stepsLeft_nextPop {ring ring' : Spsc β} (h : ring.step ring.nextPop = some ring')
    (hbusy : ring'.consumer ≠ .idle) :
    stepsLeft ring'.consumer < stepsLeft ring.consumer := by
  cases hc : ring.consumer with
  | idle =>
      simp only [Spsc.nextPop, hc] at h
      rcases Spsc.step_popLoadTail.1 h with ⟨_, rfl⟩
      simp [stepsLeft]
  | loadedTail tail =>
      simp only [Spsc.nextPop, hc] at h
      rcases Spsc.step_popLoadHead.1 h with ⟨_, _, ⟨_, rfl⟩ | ⟨_, rfl⟩⟩
      · exact absurd rfl hbusy
      · simp [stepsLeft]
  | checked tail =>
      simp only [Spsc.nextPop, hc] at h
      rcases Spsc.step_popLoadSlot.1 h with ⟨_, _, rfl⟩
      simp [stepsLeft]
  | loaded tail item =>
      simp only [Spsc.nextPop, hc] at h
      rcases Spsc.step_popStoreTail.1 h with ⟨_, _, _, rfl⟩
      exact absurd rfl hbusy

namespace Refines

/-- The next step of a pop that will find an item: the last one takes the item off the queue, the
others bring the worker closer to it. -/
theorem exists_step_pop (hr : Refines s c) (pipeSlots : Nat) (h : c.step (.pop i) = some d) :
    ∃ t, s.step pipeSlots (.pop i) = some t ∧
      (Refines t d ∨
        (Refines t c ∧
          stepsLeft (t.workers i).ring.consumer < stepsLeft (s.workers i).ring.consumer)) := by
  rcases WorkQueues.step_pop.1 h with ⟨fd, item, rest, hserver, hqueue, hd⟩
  have hpc : (s.workers i).pc = .draining fd.toInt := by
    rw [(hr.worker i).pc, hserver]
    rfl
  rcases Spsc.exists_step_nextPop (s.workers i).ring with ⟨ring, hring⟩
  let t : ThreadPool β :=
    { s.setWorker i
        { s.workers i with
          ring := ring
          pc := afterPop (s.workers i).ring ring fd.toInt } with
      popped := s.popped ++ poppedNow (s.workers i).ring i fd.toInt }
  have hstep : s.step pipeSlots (.pop i) = some t :=
    ThreadPool.step_pop.2 ⟨fd.toInt, ring, hpc, hring, rfl⟩
  have htring : (t.workers i).ring = ring := by
    simp [t]
  refine ⟨t, hstep, ?_⟩
  rcases hr.sim_pop hstep with ⟨e, he, hr'⟩
  rw [htring]
  rcases (hr.worker i).ring.pop_spec hring with ⟨_, _, hcase⟩
  rcases hcase with ⟨_, _, _, hnil, _⟩ | ⟨tail, item', hc, _, _⟩ | ⟨hbusy, hnot, _⟩
  · -- the queue is not empty
    rw [(hr.worker i).contents, hqueue] at hnil
    cases hnil
  · -- the store of `tail`
    have hacts : workActions s (.pop i) = [.pop i] := by simp [workActions, hc]
    rw [hacts, Machine.run_singleton] at he
    have hed : e = d := Option.some.inj (he.symm.trans h)
    exact Or.inl (hed ▸ hr')
  · have hacts : workActions s (.pop i) = [] ∨ workActions s (.pop i) = [.finish i] := by
      cases hc : (s.workers i).ring.consumer with
      | loaded tail item' => exact absurd hc (hnot tail item')
      | loadedTail tail =>
          by_cases hempty : tail = (s.workers i).ring.rb.head <;>
            simp [workActions, hc, hempty]
      | _ => simp [workActions, hc]
    rcases hacts with hacts | hacts
    · rw [hacts] at he
      cases he
      exact Or.inr ⟨hr', stepsLeft_nextPop hring hbusy⟩
    · -- a server with a queue does not finish
      rw [hacts, Machine.run_singleton] at he
      rcases WorkQueues.step_finish.1 he with ⟨_, _, hempty, _⟩
      rw [hqueue] at hempty
      cases hempty

theorem exists_reaches_pop (hr : Refines s c) (pipeSlots : Nat) (h : c.step (.pop i) = some d) :
    ∃ k t, (threadPool β pipeSlots).run s (List.replicate k (.pop i)) = some t ∧ Refines t d := by
  -- by induction on the steps left
  generalize hn : stepsLeft (s.workers i).ring.consumer = n
  induction n using Nat.strong_induction_on generalizing s with
  | _ n ih =>
      rcases hr.exists_step_pop pipeSlots h with ⟨t, hstep, hlast | ⟨hmore, hless⟩⟩
      · exact ⟨1, t, Machine.run_cons_of_step _ hstep rfl, hlast⟩
      · rw [hn] at hless
        rcases ih _ hless hmore rfl with ⟨k, u, hrun, hu⟩
        exact ⟨k + 1, u, Machine.run_cons_of_step _ hstep hrun, hu⟩

theorem exists_step_take (hr : Refines s c) (pipeSlots : Nat) (h : c.step (.take i) = some d) :
    ∃ t, s.step pipeSlots (.read i) = some t ∧ Refines t d := by
  rcases WorkQueues.step_take.1 h with ⟨fd, rest, hserver, hmail, _⟩
  have hw := hr.worker i
  have hpc : (s.workers i).pc = .reading := by
    rw [hw.pc, hserver]
    rfl
  have hpipe := hw.pipe
  rw [hmail, List.map_cons] at hpipe
  have hstep : s.step pipeSlots (.read i) = some _ :=
    step_read_processPacket hw.running hpc hpipe
  -- the queues are deterministic, so the simulation leads to the same state
  rcases hr.sim_read hstep with ⟨e, he, hr'⟩
  have hed : e = d := Option.some.inj (he.symm.trans h)
  exact ⟨_, hstep, hed ▸ hr'⟩

theorem exists_step_done (hr : Refines s c) (pipeSlots : Nat) (h : c.step (.done i) = some d) :
    ∃ t fd item, (s.workers i).pc = .processing fd (some item) ∧
      s.step pipeSlots (.processed i) = some t ∧ Refines t d := by
  rcases WorkQueues.step_done.1 h with ⟨fd, item, hserver, _⟩
  have hpc : (s.workers i).pc = .processing fd.toInt (some item) := by
    rw [(hr.worker i).pc, hserver]
    rfl
  have hstep : s.step pipeSlots (.processed i) = some _ :=
    step_processed.2 ⟨_, _, hpc, rfl⟩
  rcases hr.sim_processed hstep with ⟨e, he, hr'⟩
  have hed : e = d := Option.some.inj (he.symm.trans h)
  exact ⟨_, _, _, hpc, hstep, hed ▸ hr'⟩

end Refines

end ThreadPool

end Utils
end EVdeSwitch
