import EVdeSwitch.ControlPlane.MacTableRefinement
import EVdeSwitch.DataPlane.Engine
import EVdeSwitch.DataPlane.Learning

/-!
# TableHistory — where the tables of the engine come from

The table that the workers share is what the packets processed so far have taught it, and each
packet teaches it by at most two lookups and an insertion.  So what holds of the tables of
`learning`, and of the histories of `MacTable.replay`, holds in every run of the engine.
-/

namespace EVdeSwitch
namespace DataPlane

open EVdeSwitch.ControlPlane
open EVdeSwitch.Io
open EVdeSwitch.Lib
open EVdeSwitch.Utils

/-! ## One packet -/

/-- What the loop body does to the table for one packet, in order. -/
def tableOps (mt : MacTable) (ep : Endpoint) (p : Packet) (now : Nat) : List MacOp :=
  if isIPv6 p ∨ isBroadcast p.dest then
    []
  else if (ep.port : Int) = (macTableLookup mt p.dest VLAN now).1 then
    [.lookup (p.dest, VLAN) now]
  else if (lookSource mt p now).1 = -1 then
    [.lookup (p.dest, VLAN) now, .lookup (p.src, VLAN) now, .insert (p.src, VLAN) ep.port now]
  else
    [.lookup (p.dest, VLAN) now, .lookup (p.src, VLAN) now]

variable {mt mt' : MacTable}

theorem foldl_tableOps (mt : MacTable) (ep : Endpoint) (p : Packet) (now : Nat) :
    (tableOps mt ep p now).foldl MacTable.apply mt = learn mt ep p now := by
  unfold tableOps learn
  split_ifs <;> rfl

/-- The operations of one packet are all made at one time. -/
theorem time_of_mem_tableOps {ep : Endpoint} {p : Packet} {now : Nat} {op : MacOp}
    (h : op ∈ tableOps mt ep p now) : op.time = now := by
  unfold tableOps at h
  split_ifs at h
  all_goals
    simp only [List.mem_cons, List.not_mem_nil, or_false] at h
  · rw [h, TimedOp.time]
  · rcases h with rfl | rfl | rfl <;> rfl
  · rcases h with rfl | rfl <;> rfl

/-! ## Runs of packets -/

/-- The operations of a run of packets: on a clock that does not go back they are a history in
the order of time. -/
theorem exists_operations {works : List Processing} (h : learning.run mt works = some mt') :
    ∃ ops : List MacOp, ops.foldl MacTable.apply mt = mt' ∧
      (∀ op ∈ ops, ∃ work ∈ works, op.time = work.now) ∧
      ((works.map Processing.now).Pairwise (· ≤ ·) → (ops.map TimedOp.time).Pairwise (· ≤ ·)) := by
  induction works generalizing mt with
  | nil =>
      cases h
      exact ⟨[], rfl, by simp, by simp⟩
  | cons work works ih =>
      rcases learning.run_cons_eq_some.1 h with ⟨mt₁, hstep, hrest⟩
      rcases ih hrest with ⟨ops, hops, htimes, hclock⟩
      have hfirst : (tableOps mt work.ep work.p work.now).foldl MacTable.apply mt = mt₁ := by
        rw [foldl_tableOps, learning_step hstep]
      refine ⟨tableOps mt work.ep work.p work.now ++ ops, ?_, ?_, ?_⟩
      · rw [List.foldl_append, hfirst, hops]
      · intro op hop
        rcases List.mem_append.1 hop with hnow | hlater
        · exact ⟨work, List.mem_cons_self, time_of_mem_tableOps hnow⟩
        · rcases htimes op hlater with ⟨work', hwork', htime⟩
          exact ⟨work', List.mem_cons_of_mem _ hwork', htime⟩
      · intro hpairwise
        rw [List.map_cons, List.pairwise_cons] at hpairwise
        rw [List.map_append, List.pairwise_append]
        refine ⟨?_, hclock hpairwise.2, ?_⟩
        · -- the operations of the first packet are simultaneous
          refine List.pairwise_map.2 (List.pairwise_of_forall_mem_list ?_)
          intro op hop op' hop'
          rw [time_of_mem_tableOps hop, time_of_mem_tableOps hop']
        · intro time htime time' htime'
          rcases List.mem_map.1 htime with ⟨op, hop, rfl⟩
          rcases List.mem_map.1 htime' with ⟨op', hop', rfl⟩
          rcases htimes op' hop' with ⟨work', hwork', heq⟩
          rw [time_of_mem_tableOps hop, heq]
          exact hpairwise.1 work'.now (List.mem_map_of_mem hwork')

/-! ## Runs of the engine -/

namespace Engine

variable {n : ThreadCount} {pipeSlots : Nat} {s t : Engine}

/-- Only a worker with a packet touches the table, and it does so as `learning` does. -/
theorem mt_cases {a : EngineAction} (h : s.step n pipeSlots a = some t) :
    t.mt = s.mt ∨
      ∃ fd work, fdTableLookup s.fdt fd = some work.ep ∧ learning.step s.mt work = some t.mt := by
  cases a with
  | process i now sendFails =>
      rcases step_process.1 h with ⟨fd, b, pool, ⟨mt, sent⟩, _, _, hresult, rfl⟩
      cases hep : fdTableLookup s.fdt fd with
      | none =>
          simp only [processPacket, hep] at hresult
          cases hresult
      | some ep =>
          simp only [processPacket, hep] at hresult
          let work : Processing :=
            { endpoints := s.endpoints
              ep := ep
              p := b.p
              now := now
              sendFails := sendFails }
          have hwork : learning.step s.mt work = some mt := by
            simp only [learning, work, hresult]
          exact Or.inr ⟨fd, work, hep, hwork⟩
  | control fdt endpoints =>
      cases h
      exact Or.inl rfl
  | _ =>
      simp only [step, poolAction, Option.bind_some, Option.map_eq_some_iff] at h
      rcases h with ⟨pool, _, rfl⟩
      exact Or.inl rfl

theorem learning_reaches_step {a : EngineAction} (h : s.step n pipeSlots a = some t) :
    learning.Reaches s.mt t.mt := by
  rcases mt_cases h with hsame | ⟨_, _, _, hwork⟩
  · rw [hsame]
    exact Machine.Reaches.refl s.mt
  · exact Machine.Reaches.single hwork

/-- The table in a reachable state is what some packets, one after the other, have made of the
empty one. -/
theorem learning_reaches (h : (engine n pipeSlots).Reaches start s) :
    learning.Reaches macTableCreate s.mt :=
  h.invariant (fun s => learning.Reaches macTableCreate s.mt)
    (fun _ _ _ hs hstep => hs.trans (learning_reaches_step hstep)) (Machine.Reaches.refl _)

theorem sound_of_reaches (h : (engine n pipeSlots).Reaches start s) : Sound s.mt := by
  rcases learning_reaches h with ⟨works, hworks⟩
  exact sound_run hworks

/-- And it tracks a history of lookups and insertions. -/
theorem exists_tracks_of_reaches (h : (engine n pipeSlots).Reaches start s) :
    ∃ history, MacTable.Tracks s.mt history := by
  rcases learning_reaches h with ⟨works, hworks⟩
  rcases exists_operations hworks with ⟨ops, hops, _, _⟩
  refine ⟨ops, ?_⟩
  rw [← hops]
  exact MacTable.tracks_replay ops

end Engine

end DataPlane
end EVdeSwitch
