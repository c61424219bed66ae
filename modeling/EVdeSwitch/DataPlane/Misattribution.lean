import EVdeSwitch.DataPlane.Attribution
import EVdeSwitch.Lib.TaggedService
import EVdeSwitch.Utils.ThreadPoolService

/-!
# Misattribution — a push next to a foreign descriptor can go wrong

The condition of `Attribution` on the pushes cannot be relaxed: from the first push that does not
meet it, the worker alone can get to the packet with the wrong descriptor in hand.  The work
queues tell what it has to do, and the worker can do it, as long as no packet on its way makes it
end the process; so the tables are set up for the packets to come.
-/

namespace EVdeSwitch
namespace DataPlane

open EVdeSwitch.ControlPlane
open EVdeSwitch.Io
open EVdeSwitch.Lib
open EVdeSwitch.Utils

/-- Without endpoints a packet is sent nowhere, and ends nothing. -/
theorem exists_processPacket_ok (mt : MacTable) (fd : Fd) (p : Packet) (now : Nat) :
    ∃ fdt result, processPacket fdt [] mt fd.toInt p now false = .ok result := by
  let ep : Endpoint := ⟨1, fd⟩
  let fdt := (fdTableInsert fdTableCreate fd ep true).2
  have hlookup : fdTableLookup fdt fd.toInt = some ep := by
    rw [fdTableLookup_insert, if_pos rfl]
  have hsurvives : ¬ ProcessFails fdt [] mt fd.toInt p now false := by
    simp [ProcessFails, hlookup]
  rcases processPacket_cases fdt [] mt fd.toInt p now false with ⟨hfails, _⟩ | ⟨_, result, hok⟩
  · exact absurd hfails hsurvives
  · exact ⟨fdt, result, hok⟩

namespace Engine

variable {n : ThreadCount} {pipeSlots : Nat} {s t : Engine} {c d : WorkQueues Nat Buffer Fd}
variable {i : Nat}

/-! ## The worker does what the server does -/

theorem Refines.exists_reaches_take (hr : Refines s c) (h : c.step (.take i) = some d) :
    ∃ t, (engine n pipeSlots).Reaches s t ∧ Refines t d := by
  rcases ThreadPool.Refines.exists_step_take hr pipeSlots h with ⟨pool, hpool, hr'⟩
  have hstep : (engine n pipeSlots).step s (.read i) = some { s with pool := pool } := by
    simp [engine, step, poolAction, hpool]
  exact ⟨_, Machine.Reaches.single hstep, hr'⟩

theorem Refines.exists_reaches_pop (hr : Refines s c) (h : c.step (.pop i) = some d) :
    ∃ t, (engine n pipeSlots).Reaches s t ∧ Refines t d := by
  rcases ThreadPool.Refines.exists_reaches_pop hr pipeSlots h with ⟨k, pool, hrun, hr'⟩
  have hmirrors : List.Forall₂ (Mirrors n pipeSlots) (List.replicate k (.pop i))
      (List.replicate k (.pop i)) := by
    rw [List.forall₂_iff_get]
    refine ⟨by simp, ?_⟩
    intro j hj hj' s
    simp [step, poolAction]
  exact ⟨_, ⟨_, run_of_mirrors hmirrors hrun⟩, hr'⟩

/-- The tables are replaced first, so that the packet does not end the process. -/
theorem Refines.exists_reaches_done (hr : Refines s c) (h : c.step (.done i) = some d) :
    ∃ t, (engine n pipeSlots).Reaches s t ∧ Refines t d := by
  rcases WorkQueues.step_done.1 h with ⟨fd, b, hserver, _⟩
  have hpc : (s.pool.workers i).pc = .processing fd.toInt (some b) := by
    rw [(ThreadPool.Refines.worker hr i).pc, hserver]
    rfl
  rcases ThreadPool.Refines.exists_step_done hr pipeSlots h with ⟨pool, _, _, _, hpool, hr'⟩
  rcases exists_processPacket_ok s.mt fd b.p 0 with ⟨fdt, result, hresult⟩
  have hcontrol : (engine n pipeSlots).step s (.control fdt []) =
      some { s with fdt := fdt, endpoints := [] } := rfl
  have hprocess : step n pipeSlots { s with fdt := fdt, endpoints := [] }
      (.process i 0 false) = some _ :=
    step_process.2 ⟨fd.toInt, b, pool, result, hpc, hpool, hresult, rfl⟩
  have hlast : (engine n pipeSlots).Reaches { s with fdt := fdt, endpoints := [] } _ :=
    ⟨[.process i 0 false], Machine.run_cons_of_step _ hprocess rfl⟩
  exact ⟨_, (Machine.Reaches.single hcontrol).trans hlast, hr'⟩

theorem Refines.exists_reaches_service (hr : Refines s c) {a : WorkAction Nat Buffer Fd}
    (ha : WorkQueues.IsService i a) (h : c.step a = some d) :
    ∃ t, (engine n pipeSlots).Reaches s t ∧ Refines t d := by
  cases ha with
  | take => exact hr.exists_reaches_take h
  | pop => exact hr.exists_reaches_pop h
  | done => exact hr.exists_reaches_done h

/-! ## The push -/

/-- The descriptors of a worker are tags of its server. -/
theorem Refines.exists_mem_tagsAt (hr : Refines s c) {u : Int}
    (hu : u ∈ descriptors (s.pool.workers i)) : ∃ fd ∈ c.tagsAt i, u = fd.toInt := by
  rw [hr.descriptors_eq] at hu
  rcases List.mem_map.1 hu with ⟨fd, hfd, rfl⟩
  exact ⟨fd, List.mem_append_left _ hfd, rfl⟩

/-- The store that completes a push is the push of the work queues. -/
theorem Refines.exists_step_completingPush (hr : Refines s c) (n : ThreadCount)
    (pipeSlots : Nat) {fd : Fd} (h : s.completingPush = some (i, fd)) :
    ∃ t b d, (engine n pipeSlots).step s .push = some t ∧
      c.producer = .pushing i b fd ∧ c.step .push = some d ∧ Refines t d := by
  cases hd : s.pool.dispatcher with
  | pushing b j fd' =>
      cases hproducer : (s.pool.workers j).ring.producer with
      | stored item head =>
          simp only [completingPush, hd, hproducer, Option.some.injEq, Prod.mk.injEq] at h
          rcases h with ⟨rfl, rfl⟩
          rcases Spsc.exists_step_nextPush (s.pool.workers j).ring b with ⟨ring, hring⟩
          have hpool : s.pool.step pipeSlots .push = some _ :=
            ThreadPool.step_push.2 ⟨b, j, fd', ring, hd, hring, rfl⟩
          have hlabels : ThreadPool.workActions s.pool .push = [.push] := by
            simp [ThreadPool.workActions, hd, hproducer]
          rcases ThreadPool.Refines.sim_push hr hpool with ⟨d, hrun, hr'⟩
          rw [hlabels, Machine.run_singleton] at hrun
          refine ⟨{ s with pool := _ }, b, d, ?_, ?_, hrun, hr'⟩
          · simp [engine, step, poolAction, hpool]
          · exact ThreadPool.Refines.producer_eq_pushing hr hd
      | _ => simp [completingPush, hd, hproducer] at h
  | _ => simp [completingPush, hd] at h

/-- From the first push that is completed next to a foreign descriptor, some run gets to a packet
that is processed for a descriptor it was not received on. -/
theorem exists_wrong_fd_of_not_ownFdOnly (n : ThreadCount) (pipeSlots : Nat)
    (as : List EngineAction) (s : Engine) (hguard : (engine n pipeSlots).Guarded OwnFdOnly start as)
    (hrun : (engine n pipeSlots).run start as = some s) (hnot : ¬ OwnFdOnly s .push) :
    ∃ t, (engine n pipeSlots).Reaches s t ∧
      ∃ d ∈ t.pool.popped, ∃ b, d.p = some b ∧ d.fd ≠ b.fd.toInt := by
  rcases exists_refines_of_guarded hguard hrun with ⟨c, htag, hr⟩
  simp only [OwnFdOnly, not_forall] at hnot
  rcases hnot with ⟨⟨i, fd⟩, hpush, u, hu, hne⟩
  rcases hr.exists_step_completingPush n pipeSlots hpush with
    ⟨s₁, b, c₁, hstep, hproducer, hcstep, hr₁⟩
  rcases hr.exists_mem_tagsAt hu with ⟨fd', hfd', rfl⟩
  -- what goes wrong in the queues goes wrong in the engine
  have hforeign : fd' ≠ fd := fun heq => hne (congrArg Fd.toInt heq)
  rcases htag.exists_wrong_service hproducer hfd' hforeign hcstep with
    ⟨bs', v, hbs', hv, job, hjob, _, hwrong⟩
  rcases Machine.exists_reaches_of_answers Refines
    (fun _ _ _ _ hr ha hstep => hr.exists_reaches_service ha hstep) hr₁ hbs' hv with
    ⟨t, ht, hrt⟩
  refine ⟨t, (Machine.Reaches.single hstep).trans ht, ThreadPool.jobPopped job, ?_, job.item, rfl, ?_⟩
  · rw [ThreadPool.Refines.popped hrt]
    exact List.mem_map.2 ⟨job, hjob, rfl⟩
  · intro heq
    exact hwrong (Fd.toInt_injective heq)

end Engine

end DataPlane
end EVdeSwitch
