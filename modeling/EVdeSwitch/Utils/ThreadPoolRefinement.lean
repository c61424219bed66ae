import EVdeSwitch.Lib.TaggedService
import EVdeSwitch.Utils.ThreadPool

/-!
# ThreadPoolRefinement — the pool implements work queues

Between two stores of an index a ring buffer only *looks* different to the two threads.  Seen
from outside, the push happens at the producer's store of `head`, the successful pop at the
consumer's store of `tail`, and the failing pop at the load of `head` that finds the buffer empty.
With these points the pool simulates the work queues of `Lib.WorkQueues`, step by step, in every
interleaving; the descriptor in a message is the tag.
-/

namespace EVdeSwitch
namespace Utils

open EVdeSwitch.Lib

namespace ThreadPool

variable {β : Type} {pipeSlots : Nat} {s t : ThreadPool β} {c d : WorkQueues Nat β Fd}

/-! ## The simulation relation -/

def workerPc : ServerState β Fd → WorkerPc β
  | .waiting => .reading
  | .draining fd => .draining fd.toInt
  | .serving fd p => .processing fd.toInt (some p)

def dispatcherPc : ProducerState Nat β Fd → DispatcherPc β
  | .idle => .idle
  | .pushing i packet fd => .pushing packet i fd
  | .posting i fd => .writing i fd

def jobPopped (job : Job Nat β Fd) : Popped β :=
  { thread_idx := job.index
    p := some job.item
    fd := job.tag.toInt }

/-- A worker against its queue, its mailbox, its server and the item being pushed to it. -/
structure WorkerRefines (w : Worker β) (queue : List β) (mail : List Fd)
    (server : ServerState β Fd) (pending : List β) : Prop where
  ring : w.ring.Inv
  contents : w.ring.contents = queue
  pipe : w.pipe = mail.map (fun fd => processPacketMessage fd.toInt)
  running : w.running = true
  pc : w.pc = workerPc server
  consumer : (∀ fd, server ≠ .draining fd) → w.ring.consumer = .idle
  pushItem : ∀ x, w.ring.pushItem = some x → x ∈ pending

structure Refines (s : ThreadPool β) (c : WorkQueues Nat β Fd) : Prop where
  worker : ∀ i,
    WorkerRefines (s.workers i) (c.queue i) (c.mail i) (c.server i) (c.pending i)
  dispatcher : s.dispatcher = dispatcherPc c.producer
  dispatched : s.dispatched = c.submitted
  popped : s.popped = c.served.map jobPopped

theorem refines_create : Refines (create : ThreadPool β) WorkQueues.start where
  worker := by
    intro i
    exact
      { ring := Spsc.inv_create
        contents := rfl
        pipe := rfl
        running := rfl
        pc := rfl
        consumer := fun _ => rfl
        pushItem := by
          intro x hx
          cases hx }
  dispatcher := rfl
  dispatched := rfl
  popped := rfl

/-- How the work queues answer a step of the pool. -/
def workActions (s : ThreadPool β) : PoolAction β → List (WorkAction Nat β Fd)
  | .dispatch packet thread_idx fd => [.submit thread_idx packet fd]
  | .push =>
      match s.dispatcher with
      | .pushing _ thread_idx _ =>
          match (s.workers thread_idx).ring.producer with
          | .stored _ _ => [.push]
          | _ => []
      | _ => []
  | .write => [.post]
  | .read thread_idx => [.take thread_idx]
  | .pop thread_idx =>
      match (s.workers thread_idx).ring.consumer with
      | .loadedTail tail =>
          if tail = (s.workers thread_idx).ring.rb.head then [.finish thread_idx] else []
      | .loaded _ _ => [.pop thread_idx]
      | _ => []
  | .processed thread_idx => [.done thread_idx]

/-! ## Reading the message back -/

theorem ofWord_HI_processPacketMessage (fd : Fd) :
    MessageType.ofWord (HI (processPacketMessage fd.toInt).type) =
      some .MSG_PROCESS_PACKET := by
  have hfd : (BitVec.ofInt 64 fd.toInt).toNat < 2 ^ 32 := by
    rw [Fd.toInt, ofInt_natCast_toNat (lt_trans fd.lt (by decide))]
    exact lt_trans fd.lt (by decide)
  rw [processPacketMessage, HI_TO64 hfd]
  rfl

theorem LO_processPacketMessage (fd : Fd) :
    (LO (processPacketMessage fd.toInt).type).toInt = fd.toInt :=
  LO_TO64_toInt _ fd

/-- The worker's `read`, when the message at the head of its pipe is a dispatcher's. -/
theorem step_read_processPacket {i : Nat} {fd : Fd} {rest : List ThreadMessage}
    (hrunning : (s.workers i).running = true) (hpc : (s.workers i).pc = .reading)
    (hpipe : (s.workers i).pipe = processPacketMessage fd.toInt :: rest) :
    s.step pipeSlots (.read i) = some (s.setWorker i
      { s.workers i with pipe := rest, pc := .draining fd.toInt }) := by
  simp [step, hrunning, hpc, hpipe, ofWord_HI_processPacketMessage, LO_processPacketMessage]

/-! ## One packet through an idle pool -/

/-- The pool with one packet pushed to worker `i`, and its message written. -/
def dispatchedOne (packet : β) (i : Nat) (fd : Fd) : ThreadPool β :=
  { (create : ThreadPool β).setWorker i
      { ring :=
          { rb := { data := Function.update (fun _ => none) 0 (some packet), head := 1, tail := 0 }
            producer := .idle
            consumer := .idle
            pushed := [packet]
            popped := [] }
        pipe := [processPacketMessage fd.toInt]
        running := true
        pc := .reading } with
    dispatched := [⟨i, packet, fd⟩] }

theorem run_dispatch (hslots : 0 < pipeSlots) (packet : β) (i : Nat) (fd : Fd) :
    (threadPool β pipeSlots).run create
      [.dispatch packet i fd, .push, .push, .push, .push, .write] =
        some (dispatchedOne packet i fd) := by
  have hmask : 1 &&& BUFFER_MASK = 1 := rfl
  simp [dispatchedOne, Machine.run_cons, threadPool, step, create, setWorker, Spsc.nextPush,
    Spsc.step, Spsc.create, ringBufferCreate, afterPush, hmask, hslots]

theorem exists_run_work (pipeSlots : Nat) (packet : β) (i : Nat) (fd : Fd) :
    ∃ t, (threadPool β pipeSlots).run (dispatchedOne packet i fd)
        [.read i, .pop i, .pop i, .pop i, .pop i] = some t ∧
      (t.workers i).pc = .processing fd.toInt (some packet) := by
  simp [dispatchedOne, Machine.run_cons, threadPool, step, create, setWorker, Spsc.nextPop,
    Spsc.step, afterPop, ofWord_HI_processPacketMessage, LO_processPacketMessage]

theorem exists_run_throughPool (hslots : 0 < pipeSlots) (packet : β) (i : Nat) (fd : Fd) :
    ∃ t, (threadPool β pipeSlots).run create
        [.dispatch packet i fd, .push, .push, .push, .push, .write, .read i, .pop i, .pop i,
          .pop i, .pop i] = some t ∧
      (t.workers i).pc = .processing fd.toInt (some packet) := by
  rcases exists_run_work pipeSlots packet i fd with ⟨t, hrun, hpc⟩
  refine ⟨t, ?_, hpc⟩
  exact (threadPool β pipeSlots).run_append_eq_some.2 ⟨_, run_dispatch hslots packet i fd, hrun⟩

/-! ## Every step is simulated -/

/-- One worker changes, the others keep what they have. -/
theorem worker_setWorker {i : Nat} {w : Worker β}
    (hw : WorkerRefines w (d.queue i) (d.mail i) (d.server i) (d.pending i))
    (hother : ∀ j, j ≠ i →
      WorkerRefines (s.workers j) (d.queue j) (d.mail j) (d.server j) (d.pending j)) (j : Nat) :
    WorkerRefines ((s.setWorker i w).workers j) (d.queue j) (d.mail j) (d.server j)
      (d.pending j) := by
  by_cases hj : j = i
  · subst hj
    simpa using hw
  · simpa [hj] using hother j hj

/-- A worker after a step of its pop; the producer's side of the ring is as before. -/
theorem WorkerRefines.pop {w : Worker β} {queue queue' : List β} {mail : List Fd}
    {server server' : ServerState β Fd} {pending : List β} {ring : Spsc β} {pc : WorkerPc β}
    (hw : WorkerRefines w queue mail server pending) (hinv : ring.Inv)
    (hprod : ring.producer = w.ring.producer) (hcontents : ring.contents = queue')
    (hpc : pc = workerPc server')
    (hconsumer : (∀ fd, server' ≠ .draining fd) → ring.consumer = .idle) :
    WorkerRefines { w with ring := ring, pc := pc } queue' mail server' pending := by
  refine
    { hw with
      ring := hinv
      contents := hcontents
      pc := hpc
      consumer := hconsumer
      pushItem := ?_ }
  have hitem : ring.pushItem = w.ring.pushItem := by simp [Spsc.pushItem, hprod]
  rw [hitem]
  exact hw.pushItem

/-! A pop is not decided yet where it goes on and has not come to the store of `tail`. -/

theorem workActions_of_undecided {i : Nat} {ring : Spsc β}
    (hring : (s.workers i).ring.step (s.workers i).ring.nextPop = some ring)
    (hbusy : ring.consumer ≠ .idle)
    (hnot : ∀ tail item, (s.workers i).ring.consumer ≠ .loaded tail item) :
    workActions s (.pop i) = [] := by
  cases hc : (s.workers i).ring.consumer with
  | loaded tail item => exact absurd hc (hnot tail item)
  | loadedTail tail =>
      have hne : tail ≠ (s.workers i).ring.rb.head := by
        intro hempty
        exact hbusy ((Spsc.nextPop_idle_iff hc hring).2 hempty)
      simp [workActions, hc, hne]
  | _ => simp [workActions, hc]

theorem afterPop_of_undecided {ring ring' : Spsc β} (hbusy : ring'.consumer ≠ .idle)
    (hnot : ∀ tail item, ring.consumer ≠ .loaded tail item) (fd : Int) :
    afterPop ring ring' fd = .draining fd := by
  cases hc : ring.consumer with
  | loaded tail item => exact absurd hc (hnot tail item)
  | loadedTail tail =>
      cases hc' : ring'.consumer with
      | idle => exact absurd hc' hbusy
      | _ => simp [afterPop, hc, hc']
  | _ => simp [afterPop, hc]

theorem poppedNow_of_undecided {ring : Spsc β}
    (hnot : ∀ tail item, ring.consumer ≠ .loaded tail item) (i : Nat) (fd : Int) :
    poppedNow ring i fd = [] := by
  cases hc : ring.consumer with
  | loaded tail item => exact absurd hc (hnot tail item)
  | _ => simp [poppedNow, hc]

namespace Refines

variable {i : Nat}

theorem producer_eq_idle (hr : Refines s c) (h : s.dispatcher = .idle) : c.producer = .idle := by
  cases hp : c.producer <;> simp [hr.dispatcher, hp, dispatcherPc] at h
  rfl

theorem producer_eq_pushing (hr : Refines s c) {packet : β} {fd : Fd}
    (h : s.dispatcher = .pushing packet i fd) : c.producer = .pushing i packet fd := by
  cases hp : c.producer <;> simp [hr.dispatcher, hp, dispatcherPc] at h
  simp [h]

theorem producer_eq_posting (hr : Refines s c) {fd : Fd} (h : s.dispatcher = .writing i fd) :
    c.producer = .posting i fd := by
  cases hp : c.producer <;> simp [hr.dispatcher, hp, dispatcherPc] at h
  simp [h]

theorem server_eq_waiting (hr : Refines s c) (h : (s.workers i).pc = .reading) :
    c.server i = .waiting := by
  have hpc := (hr.worker i).pc
  cases hs : c.server i <;> simp [hpc, hs, workerPc] at h
  rfl

theorem server_eq_draining (hr : Refines s c) {fd : Int}
    (h : (s.workers i).pc = .draining fd) :
    ∃ fd' : Fd, fd = fd'.toInt ∧ c.server i = .draining fd' := by
  have hpc := (hr.worker i).pc
  cases hs : c.server i with
  | draining fd' =>
      simp only [hpc, hs, workerPc, WorkerPc.draining.injEq] at h
      exact ⟨fd', h.symm, rfl⟩
  | _ => simp [hpc, hs, workerPc] at h

theorem server_eq_serving (hr : Refines s c) {fd : Int} {p : Option β}
    (h : (s.workers i).pc = .processing fd p) :
    ∃ (fd' : Fd) (packet : β), fd = fd'.toInt ∧ p = some packet ∧
      c.server i = .serving fd' packet := by
  have hpc := (hr.worker i).pc
  cases hs : c.server i with
  | serving fd' packet =>
      simp only [hpc, hs, workerPc, WorkerPc.processing.injEq] at h
      exact ⟨fd', packet, h.1.symm, h.2.symm, rfl⟩
  | _ => simp [hpc, hs, workerPc] at h

theorem sim_dispatch (hr : Refines s c) {packet : β} {fd : Fd}
    (h : s.step pipeSlots (.dispatch packet i fd) = some t) :
    ∃ d, c.step (.submit i packet fd) = some d ∧ Refines t d := by
  rcases step_dispatch.1 h with ⟨hd, rfl⟩
  have hidle := hr.producer_eq_idle hd
  refine ⟨_, WorkQueues.step_submit.2 ⟨hidle, rfl⟩, ?_⟩
  refine
    { worker := ?_
      dispatcher := rfl
      dispatched := by simp [hr.dispatched]
      popped := hr.popped }
  intro j
  have hw := hr.worker j
  refine { hw with pushItem := ?_ }
  intro x hx
  -- no push was under way
  have hmem := hw.pushItem x hx
  simp [WorkQueues.pending, hidle] at hmem

/-- The steps of a push before its last one change nothing but the ring. -/
theorem sim_push (hr : Refines s c) (h : s.step pipeSlots .push = some t) :
    ∃ d, (workQueues Nat β Fd).run c (workActions s .push) = some d ∧ Refines t d := by
  rcases step_push.1 h with ⟨packet, i, fd, ring, hd, hring, rfl⟩
  have hpushing := hr.producer_eq_pushing hd
  have hw := hr.worker i
  have hitem : ∀ x, (s.workers i).ring.pushItem = some x → x = packet := by
    intro x hx
    simpa [WorkQueues.pending, hpushing] using hw.pushItem x hx
  rcases hw.ring.push_spec hitem hring with
    ⟨hinv, hcons, ⟨head, hstored, hidle, hcontents⟩ | ⟨hnot, hcontents, hitem'⟩⟩
  · -- the store of `head`: the item is in the queue, the message is still to be written
    have hstep := WorkQueues.step_push.2 ⟨i, packet, fd, hpushing, rfl⟩
    have hacts : workActions s .push = [.push] := by simp [workActions, hd, hstored]
    rw [hacts]
    refine ⟨_, Machine.run_cons_of_step _ hstep rfl, ?_⟩
    refine
      { worker := ?_
        dispatcher := by simp [afterPush, hstored, dispatcherPc]
        dispatched := hr.dispatched
        popped := hr.popped }
    refine worker_setWorker ?_ ?_
    · refine { hw with ring := hinv, contents := ?_, consumer := ?_, pushItem := ?_ }
      · simp [hcontents, hw.contents]
      · intro hserver
        rw [hcons]
        exact hw.consumer hserver
      · intro x hx
        simp [Spsc.pushItem, hidle] at hx
    · intro j hj
      have hwj := hr.worker j
      simpa [hj, WorkQueues.pending, hpushing, Ne.symm hj] using hwj
  · -- the queues do not move
    refine ⟨c, ?_, ?_⟩
    · cases hp : (s.workers i).ring.producer with
      | stored x head => exact absurd hp (hnot x head)
      | _ => simp [workActions, hd, hp]
    · refine
        { worker := ?_
          dispatcher := ?_
          dispatched := hr.dispatched
          popped := hr.popped }
      · refine worker_setWorker ?_ (fun j _ => hr.worker j)
        refine { hw with ring := hinv, contents := ?_, consumer := ?_, pushItem := ?_ }
        · rw [hcontents, hw.contents]
        · intro hserver
          rw [hcons]
          exact hw.consumer hserver
        · intro x hx
          simp [WorkQueues.pending, hpushing, hitem' x hx]
      · cases hp : (s.workers i).ring.producer with
        | stored x head => exact absurd hp (hnot x head)
        | _ => simp [afterPush, hp, hpushing, dispatcherPc]

theorem sim_write (hr : Refines s c) (h : s.step pipeSlots .write = some t) :
    ∃ d, c.step .post = some d ∧ Refines t d := by
  rcases step_write.1 h with ⟨i, fd, hd, _, rfl⟩
  have hposting := hr.producer_eq_posting hd
  -- no push is under way
  have hnone : ∀ j x, (s.workers j).ring.pushItem ≠ some x := by
    intro j x hx
    simpa [WorkQueues.pending, hposting] using (hr.worker j).pushItem x hx
  refine ⟨_, WorkQueues.step_post.2 ⟨i, fd, hposting, rfl⟩, ?_⟩
  refine
    { worker := ?_
      dispatcher := rfl
      dispatched := hr.dispatched
      popped := hr.popped }
  refine worker_setWorker ?_ ?_
  · have hw := hr.worker i
    refine { hw with pipe := ?_, pushItem := fun x hx => absurd hx (hnone i x) }
    simp [hw.pipe]
  · intro j hj
    have hwj := hr.worker j
    refine { hwj with pipe := ?_, pushItem := fun x hx => absurd hx (hnone j x) }
    simpa [hj] using hwj.pipe

theorem sim_read (hr : Refines s c) (h : s.step pipeSlots (.read i) = some t) :
    ∃ d, c.step (.take i) = some d ∧ Refines t d := by
  have hw := hr.worker i
  cases hpc : (s.workers i).pc with
  | reading =>
      have hwaiting := hr.server_eq_waiting hpc
      cases hmail : c.mail i with
      -- the pipe is empty, and the `read` blocks
      | nil => simp [step, hpc, hw.pipe, hmail, hw.running] at h
      | cons fd rest =>
          have hpipe := hw.pipe
          rw [hmail, List.map_cons] at hpipe
          rw [step_read_processPacket hw.running hpc hpipe] at h
          cases h
          refine ⟨_, WorkQueues.step_take.2 ⟨fd, rest, hwaiting, hmail, rfl⟩, ?_⟩
          refine
            { worker := ?_
              dispatcher := hr.dispatcher
              dispatched := hr.dispatched
              popped := hr.popped }
          refine worker_setWorker ?_ ?_
          · refine { hw with pipe := ?_, pc := ?_, consumer := ?_ }
            · simp
            · simp [workerPc]
            · intro hserver
              simp at hserver
          · intro j hj
            simpa [hj, WorkQueues.pending] using hr.worker j
  | _ => simp [step, hpc] at h

/-- The steps of a pop before the one that decides it change nothing but the ring. -/
theorem sim_pop (hr : Refines s c) (h : s.step pipeSlots (.pop i) = some t) :
    ∃ d, (workQueues Nat β Fd).run c (workActions s (.pop i)) = some d ∧ Refines t d := by
  rcases step_pop.1 h with ⟨fd, ring, hpc, hring, rfl⟩
  have hw := hr.worker i
  rcases hr.server_eq_draining hpc with ⟨fd', rfl, hserver⟩
  rcases hw.ring.pop_spec hring with ⟨hinv, hprod, hcase⟩
  rcases hcase with ⟨tail, hc, hidle, hnil, hnil'⟩ | ⟨tail, item, hc, hidle, hcons⟩ |
    ⟨hbusy, hnot, hsame⟩
  · -- the load of `head` finds the buffer empty
    have hempty : tail = (s.workers i).ring.rb.head :=
      (Spsc.nextPop_idle_iff hc hring).1 hidle
    have hqueue : c.queue i = [] := hw.contents.symm.trans hnil
    have hstep := WorkQueues.step_finish.2 ⟨fd', hserver, hqueue, rfl⟩
    have hacts : workActions s (.pop i) = [.finish i] := by simp [workActions, hc, hempty]
    rw [hacts]
    refine ⟨_, Machine.run_cons_of_step _ hstep rfl, ?_⟩
    refine
      { worker := ?_
        dispatcher := hr.dispatcher
        dispatched := hr.dispatched
        popped := by simp [poppedNow, hc, hr.popped] }
    refine worker_setWorker ?_ ?_
    · refine hw.pop hinv hprod (hnil'.trans hqueue.symm) ?_ fun _ => hidle
      simp [afterPop, hc, hidle, workerPc]
    · intro j hj
      simpa [hj, WorkQueues.pending] using hr.worker j
  · -- the store of `tail`: the oldest item leaves the queue
    have hqueue : c.queue i = item :: ring.contents := hw.contents.symm.trans hcons
    have hstep := WorkQueues.step_pop.2 ⟨fd', item, ring.contents, hserver, hqueue, rfl⟩
    have hacts : workActions s (.pop i) = [.pop i] := by simp [workActions, hc]
    rw [hacts]
    refine ⟨_, Machine.run_cons_of_step _ hstep rfl, ?_⟩
    refine
      { worker := ?_
        dispatcher := hr.dispatcher
        dispatched := hr.dispatched
        popped := by simp [poppedNow, hc, hr.popped, jobPopped] }
    refine worker_setWorker ?_ ?_
    · refine hw.pop hinv hprod ?_ ?_ fun _ => hidle
      · simp
      · simp [afterPop, hc, workerPc]
    · intro j hj
      simpa [hj, WorkQueues.pending] using hr.worker j
  · -- the pop is not decided yet, and the queues do not move
    rw [workActions_of_undecided hring hbusy hnot]
    refine ⟨c, rfl, ?_⟩
    refine
      { worker := ?_
        dispatcher := hr.dispatcher
        dispatched := hr.dispatched
        popped := by rw [poppedNow_of_undecided hnot, List.append_nil, hr.popped] }
    refine worker_setWorker ?_ fun j _ => hr.worker j
    refine hw.pop hinv hprod (hsame.trans hw.contents) ?_ ?_
    · rw [afterPop_of_undecided hbusy hnot, hserver, workerPc]
    · intro hserver'
      exact absurd hserver (hserver' fd')

theorem sim_processed (hr : Refines s c) (h : s.step pipeSlots (.processed i) = some t) :
    ∃ d, c.step (.done i) = some d ∧ Refines t d := by
  rcases step_processed.1 h with ⟨fd, p, hpc, rfl⟩
  rcases hr.server_eq_serving hpc with ⟨fd', packet, rfl, rfl, hserver⟩
  have hw := hr.worker i
  refine ⟨_, WorkQueues.step_done.2 ⟨fd', packet, hserver, rfl⟩, ?_⟩
  refine
    { worker := ?_
      dispatcher := hr.dispatcher
      dispatched := hr.dispatched
      popped := hr.popped }
  -- the worker goes on draining, and its ring is not touched
  refine worker_setWorker ?_ ?_
  · refine { hw with pc := ?_, consumer := ?_ }
    · simp [workerPc]
    · intro hserver'
      simp at hserver'
  · intro j hj
    simpa [hj, WorkQueues.pending] using hr.worker j

theorem sim_step (hr : Refines s c) (a : PoolAction β) (h : s.step pipeSlots a = some t) :
    ∃ d, (workQueues Nat β Fd).run c (workActions s a) = some d ∧ Refines t d := by
  cases a with
  | dispatch packet i fd =>
      rcases hr.sim_dispatch h with ⟨d, hstep, hr'⟩
      exact ⟨d, Machine.run_cons_of_step _ hstep rfl, hr'⟩
  | push => exact hr.sim_push h
  | write =>
      rcases hr.sim_write h with ⟨d, hstep, hr'⟩
      exact ⟨d, Machine.run_cons_of_step _ hstep rfl, hr'⟩
  | read i =>
      rcases hr.sim_read h with ⟨d, hstep, hr'⟩
      exact ⟨d, Machine.run_cons_of_step _ hstep rfl, hr'⟩
  | pop i => exact hr.sim_pop h
  | processed i =>
      rcases hr.sim_processed h with ⟨d, hstep, hr'⟩
      exact ⟨d, Machine.run_cons_of_step _ hstep rfl, hr'⟩

end Refines

/-- Every state the pool reaches refines a state that the work queues reach. -/
theorem exists_refines_of_reaches (h : (threadPool β pipeSlots).Reaches create s) :
    ∃ c, (workQueues Nat β Fd).Reaches WorkQueues.start c ∧ Refines s c := by
  rcases h with ⟨as, has⟩
  rcases Machine.simulation_run Refines (fun _ a _ _ hr hstep => hr.sim_step a hstep)
    refines_create has with ⟨bs, c, hbs, hr⟩
  exact ⟨c, ⟨bs, hbs⟩, hr⟩

end ThreadPool

end Utils
end EVdeSwitch
