import EVdeSwitch.DataPlane.Engine
import EVdeSwitch.Lib.ServiceOrder

/-!
# Attribution — is a packet processed for the descriptor it came in on?

A packet travels through the ring, its descriptor in a message through the pipe, and one message
makes the worker drain the whole ring.  The two meet again as long as no push completes while the
worker still has another descriptor, in a message that it has not read or at work.  This is the
condition of `Lib.TaggedService` on the pushes, with the descriptor of the receipt as the tag.
-/

namespace EVdeSwitch
namespace DataPlane

open EVdeSwitch.Io
open EVdeSwitch.Lib
open EVdeSwitch.Utils

/-- The descriptors that a worker works for, or will read from its pipe. -/
def descriptors (w : Worker Buffer) : List Int :=
  w.pipe.map (fun msg => (LO msg.type).toInt) ++
    match w.pc with
    | .reading => []
    | .draining fd => [fd]
    | .processing fd _ => [fd]

namespace Engine

/-- The worker and the descriptor of a push whose next store completes it. -/
def completingPush (s : Engine) : Option (Nat × Fd) :=
  match s.pool.dispatcher with
  | .pushing _ i fd =>
      match (s.pool.workers i).ring.producer with
      | .stored _ _ => some (i, fd)
      | _ => none
  | _ => none

/-- The condition on a step: where it completes a push, the worker has no descriptor but that of
the packet. -/
def OwnFdOnly (s : Engine) : EngineAction → Prop
  | .push => ∀ x ∈ s.completingPush, ∀ u ∈ descriptors (s.pool.workers x.1), u = x.2.toInt
  | _ => True

instance (s : Engine) : ∀ a : EngineAction, Decidable (OwnFdOnly s a)
  | .push => inferInstanceAs (Decidable (∀ x ∈ s.completingPush, _))
  | .recv _ _ _ => isTrue trivial
  | .write => isTrue trivial
  | .read _ => isTrue trivial
  | .pop _ => isTrue trivial
  | .process _ _ _ => isTrue trivial
  | .control _ _ => isTrue trivial

section Guards

variable {n : ThreadCount} {pipeSlots : Nat} {s t : Engine} {c : WorkQueues Nat Buffer Fd}

/-- The descriptors of a worker are the tags that its server has at hand. -/
theorem Refines.descriptors_eq (hr : Refines s c) (i : Nat) :
    descriptors (s.pool.workers i) = (c.mail i ++ (c.server i).tags).map Fd.toInt := by
  have hw := ThreadPool.Refines.worker hr i
  -- a message carries its tag in the low half
  have hmail : (s.pool.workers i).pipe.map (fun msg => (LO msg.type).toInt) =
      (c.mail i).map Fd.toInt := by
    rw [hw.pipe, List.map_map]
    refine List.map_congr_left ?_
    intro fd _
    exact ThreadPool.LO_processPacketMessage fd
  rw [descriptors, hmail, hw.pc, List.map_append]
  cases c.server i <;> rfl

/-- The tags at a server are descriptors of the worker, if none is owed. -/
theorem Refines.mem_descriptors (hr : Refines s c) {i : Nat} {u : Fd} (hu : u ∈ c.tagsAt i)
    (howed : c.owed i = []) : u.toInt ∈ descriptors (s.pool.workers i) := by
  rw [WorkQueues.tagsAt, howed, List.append_nil] at hu
  rw [hr.descriptors_eq]
  exact List.mem_map_of_mem hu

/-- A store that completes a push under the condition is a push under the abstract condition. -/
theorem Refines.ownTagOnly_push (hr : Refines s c) (hok : OwnFdOnly s .push) {b : Buffer} {i : Nat}
    {fd : Fd} {item : Buffer} {head : Nat} (hd : s.pool.dispatcher = .pushing b i fd)
    (hproducer : (s.pool.workers i).ring.producer = .stored item head) :
    WorkQueues.OwnTagOnly Buffer.fd c .push := by
  have hp := ThreadPool.Refines.producer_eq_pushing hr hd
  intro j item' tag hp' u hu
  rw [hp] at hp'
  cases hp'
  have howed : c.owed i = [] := by
    simp [WorkQueues.owed, hp]
  have hcompleting : s.completingPush = some (i, fd) := by
    simp only [completingPush, hd, hproducer]
  exact Fd.toInt_injective (hok (i, fd) hcompleting u.toInt (hr.mem_descriptors hu howed))

/-- The answers of the work queues meet the abstract condition if the step meets the condition. -/
theorem Refines.guarded_labels (hr : Refines s c) {a : EngineAction} (hok : OwnFdOnly s a) :
    (workQueues Nat Buffer Fd).Guarded (WorkQueues.OwnTagOnly Buffer.fd) c (labels n s a) := by
  cases a with
  | recv fd stale frame => exact ⟨rfl, fun _ _ => trivial⟩
  | push =>
      simp only [labels, poolAction, ThreadPool.workActions]
      cases hd : s.pool.dispatcher with
      | pushing b i fd =>
          -- only the last store of a push is answered by a step of the queues
          cases hproducer : (s.pool.workers i).ring.producer with
          | stored item head =>
              simp only [hproducer]
              exact ⟨hr.ownTagOnly_push hok hd hproducer, fun _ _ => trivial⟩
          | _ =>
              simp only [hproducer]
              exact trivial
      | _ => exact trivial
  | write => exact ⟨trivial, fun _ _ => trivial⟩
  | read i => exact ⟨trivial, fun _ _ => trivial⟩
  | pop i =>
      simp only [labels, poolAction, ThreadPool.workActions]
      cases hconsumer : (s.pool.workers i).ring.consumer with
      | loadedTail tail =>
          by_cases hempty : tail = (s.pool.workers i).ring.rb.head
          · simp only [hempty, if_true]
            exact ⟨trivial, fun _ _ => trivial⟩
          · simp only [hempty, if_false]
            exact trivial
      | loaded tail item => exact ⟨trivial, fun _ _ => trivial⟩
      | _ => exact trivial
  | process i now sendFails => exact ⟨trivial, fun _ _ => trivial⟩
  | control fdt endpoints => exact trivial

/-- A run under the condition is answered by a run of the work queues under theirs. -/
theorem exists_refines_of_guarded {as : List EngineAction}
    (hguard : (engine n pipeSlots).Guarded OwnFdOnly start as)
    (hrun : (engine n pipeSlots).run start as = some s) :
    ∃ c, WorkQueues.TagInv Buffer.fd c ∧ Refines s c := by
  rcases Machine.simulation_run_guarded Refines (fun _ a _ _ hr hstep => hr.sim_step a hstep)
    (fun _ _ _ _ hr _ hok => hr.guarded_labels hok) refines_start hguard hrun with
    ⟨bs, c, hbs, hc, hr⟩
  exact ⟨c, WorkQueues.tagInv_of_guarded hbs hc, hr⟩

end Guards

/-- In every run in which no push completes while its worker has another descriptor, every packet
that a worker pops is processed for the descriptor it was received on. -/
theorem popped_fd_eq_of_ownFdOnly (n : ThreadCount) (pipeSlots : Nat) (as : List EngineAction)
    (s : Engine) (hguard : (engine n pipeSlots).Guarded OwnFdOnly start as)
    (hrun : (engine n pipeSlots).run start as = some s) :
    (∀ d ∈ s.pool.popped, ∃ b ∈ s.received, d.p = some b ∧ d.fd = b.fd.toInt) ∧
    (∀ i fd p, (s.pool.workers i).pc = .processing fd p → ∃ b ∈ s.received, p = some b ∧
      fd = b.fd.toInt) := by
  -- the queues serve every item under its own tag
  rcases exists_refines_of_guarded hguard hrun with ⟨c, htag, hr⟩
  have hserved : ∀ job ∈ c.served, job.item ∈ s.received ∧ job.tag = job.item.fd := by
    intro job hjob
    rcases htag.inv.exists_submitted hjob with ⟨job', hjob', _, hitem⟩
    refine ⟨?_, htag.served job hjob⟩
    rw [received, ThreadPool.Refines.dispatched hr]
    exact List.mem_map.2 ⟨job', hjob', hitem⟩
  constructor
  · intro d hd
    rw [ThreadPool.Refines.popped hr] at hd
    rcases List.mem_map.1 hd with ⟨job, hjob, rfl⟩
    exact ⟨job.item, (hserved job hjob).1, rfl, congrArg Fd.toInt (hserved job hjob).2⟩
  · intro i fd p hpc
    rcases ThreadPool.Refines.server_eq_serving hr hpc with ⟨fd', b, rfl, rfl, hserver⟩
    have hjob := hserved _ (htag.inv.serving i fd' b hserver)
    exact ⟨b, hjob.1, rfl, congrArg Fd.toInt hjob.2⟩

/-- Packets from two descriptors for one worker, which has found its ring empty after the first one
when the second one comes in. -/
def drainedBetween : List EngineAction :=
  [.control (fdTableInsert (fdTableInsert fdTableCreate 7 ⟨1, 7⟩ true).2 8 ⟨2, 8⟩ true).2 [],
    .recv 7 Packet.zeroed (some stationFrame), .push, .push, .push, .push, .write,
    .read 0, .pop 0, .pop 0, .pop 0, .pop 0, .process 0 1000 false, .pop 0, .pop 0,
    .recv 8 Packet.zeroed (some stationFrame), .push, .push, .push, .push, .write,
    .read 0, .pop 0, .pop 0, .pop 0, .pop 0]

theorem popped_fd_eq_drained_between :
    ∃ (n : ThreadCount) (s : Engine), (engine n 4).run start drainedBetween = some s ∧
      s.pool.popped.map Popped.fd = [7, 8] ∧
      ∀ d ∈ s.pool.popped, ∃ b ∈ s.received, d.p = some b ∧ d.fd = b.fd.toInt := by
  have hguard : (engine ⟨1, by decide, by decide⟩ 4).Guarded OwnFdOnly start drainedBetween := by
    decide +kernel
  have heval : ((engine ⟨1, by decide, by decide⟩ 4).run start drainedBetween).map
      (fun s => s.pool.popped.map Popped.fd) = some [7, 8] := by
    decide +kernel
  rcases Option.map_eq_some_iff.1 heval with ⟨s, hrun, hfd⟩
  exact ⟨_, s, hrun, hfd, (popped_fd_eq_of_ownFdOnly _ 4 drainedBetween s hguard hrun).1⟩

/-- Packets from two descriptors for one worker: both are in the ring when the worker reads the
message for the first one. -/
def twoDescriptors : List EngineAction :=
  [.control (fdTableInsert fdTableCreate 7 ⟨1, 7⟩ true).2 [],
    .recv 7 Packet.zeroed (some stationFrame), .push, .push, .push, .push, .write,
    .recv 8 Packet.zeroed (some stationFrame), .push, .push, .push, .push,
    .read 0, .pop 0, .pop 0, .pop 0, .pop 0, .process 0 1000 false,
    .pop 0, .pop 0, .pop 0, .pop 0]

theorem popped_fd_ne_two_descriptors :
    ∃ (n : ThreadCount) (s : Engine), (engine n 4).run start twoDescriptors = some s ∧
      ∃ d ∈ s.pool.popped, ∃ b, d.p = some b ∧ d.fd ≠ b.fd.toInt := by
  have heval : ((engine ⟨1, by decide, by decide⟩ 4).run start twoDescriptors).map
      (fun s => s.pool.popped.any fun d => d.p.any fun b => d.fd ≠ b.fd.toInt) = some true := by
    decide +kernel
  rcases Option.map_eq_some_iff.1 heval with ⟨s, hrun, hany⟩
  refine ⟨_, s, hrun, ?_⟩
  rcases List.any_eq_true.1 hany with ⟨d, hd, hne⟩
  cases hp : d.p with
  | none => simp [hp] at hne
  | some b => exact ⟨d, hd, b, hp, by simpa [hp] using hne⟩

end Engine

end DataPlane
end EVdeSwitch
