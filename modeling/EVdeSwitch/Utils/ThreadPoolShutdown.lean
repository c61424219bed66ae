import EVdeSwitch.Lib.History
import EVdeSwitch.Utils.ThreadPoolRefinement

/-!
# ThreadPoolShutdown — `thread_pool_destroy`

Two functions write to the pipe of a worker.  `thread_pool_dispatch_packet` packs the type of its
message into the high half of the word, from where the worker takes it; `thread_pool_destroy`
assigns the type to the whole word, so that it ends up in the low half
(`src/utils/thread_pool.c`).
-/

namespace EVdeSwitch
namespace Utils

open EVdeSwitch.Lib

/-! ## Messages -/

/-- A message as its writer means it. -/
inductive PoolMessage
  | processPacket (fd : Fd)
  | shutdown
  deriving DecidableEq, Repr

namespace PoolMessage

def encode : PoolMessage → ThreadMessage
  | .processPacket fd => processPacketMessage fd.toInt
  | .shutdown => shutdownMessage

end PoolMessage

/-- What the worker makes of a message: the case of its `switch`, and `fd`. -/
def decode (msg : ThreadMessage) : Option MessageType × Int :=
  (MessageType.ofWord (HI msg.type), (LO msg.type).toInt)

namespace PoolMessage

/-- The worker takes the message for what it is meant to be. -/
def DecodesTo : PoolMessage → Option MessageType × Int → Prop
  | .processPacket fd, decoded => decoded = (some .MSG_PROCESS_PACKET, fd.toInt)
  | .shutdown, decoded => decoded.1 = some .MSG_SHUTDOWN

/-- What the worker takes the message for. -/
def takenFor : PoolMessage → Option MessageType × Int
  | .processPacket fd => (some .MSG_PROCESS_PACKET, fd.toInt)
  | .shutdown => (some .MSG_PROCESS_PACKET, 1)

/-- The message of `thread_pool_destroy` is taken for a packet from descriptor 1. -/
theorem decode_encode (m : PoolMessage) : decode m.encode = m.takenFor := by
  cases m with
  | processPacket fd =>
      exact Prod.ext (ThreadPool.ofWord_HI_processPacketMessage fd)
        (ThreadPool.LO_processPacketMessage fd)
  | shutdown => rfl

theorem fst_takenFor (m : PoolMessage) : m.takenFor.1 = some .MSG_PROCESS_PACKET := by
  cases m <;> rfl

theorem decodesTo_takenFor_iff (m : PoolMessage) : m.DecodesTo m.takenFor ↔ m ≠ .shutdown := by
  cases m <;> simp [DecodesTo, takenFor]

end PoolMessage

/-! ## The pool and the thread that destroys it -/

/-- Where `thread_pool_destroy` is. -/
inductive DestroyerPc
  | notCalled
  | sending (i : Nat)
  | joining (i : Nat)
  | done
  deriving DecidableEq, Repr

variable {β : Type}

structure DestroyedPool (β : Type) where
  pool : ThreadPool β
  destroyer : DestroyerPc

inductive DestroyAction (β : Type)
  | pool (a : PoolAction β)
  | destroy
  | send
  | join
  deriving DecidableEq, Repr

namespace DestroyedPool

def create : DestroyedPool β :=
  { pool := ThreadPool.create
    destroyer := .notCalled }

/-- The test of the loop over the workers. -/
def nextWorker (num_threads i : Nat) : DestroyerPc :=
  if i < num_threads then .sending i else .done

/-- No packet is dispatched after the call of `thread_pool_destroy`, which comes between two
calls of `thread_pool_dispatch_packet`. -/
def step (num_threads pipeSlots : Nat) (s : DestroyedPool β) :
    DestroyAction β → Option (DestroyedPool β)
  | .pool (.dispatch packet thread_idx fd) =>
      match s.destroyer with
      | .notCalled =>
          (s.pool.step pipeSlots (.dispatch packet thread_idx fd)).map fun pool =>
            { s with pool := pool }
      | _ => none
  | .pool a => (s.pool.step pipeSlots a).map fun pool => { s with pool := pool }
  | .destroy =>
      match s.destroyer, s.pool.dispatcher with
      | .notCalled, .idle => some { s with destroyer := nextWorker num_threads 0 }
      | _, _ => none
  -- Send shutdown message
  | .send =>
      match s.destroyer with
      | .sending i =>
          let worker := s.pool.workers i
          if worker.pipe.length < pipeSlots then
            let pipe := worker.pipe ++ [shutdownMessage]
            some
              { pool := s.pool.setWorker i { worker with pipe := pipe }
                destroyer := .joining i }
          else
            none
      | _ => none
  -- `pthread_join`; the worker has returned when it has found its flag cleared
  | .join =>
      match s.destroyer with
      | .joining i =>
          match (s.pool.workers i).running, (s.pool.workers i).pc with
          | false, .reading => some { s with destroyer := nextWorker num_threads (i + 1) }
          | _, _ => none
      | _ => none

end DestroyedPool

variable (β) in
/-- All interleavings of the dispatcher, the workers and `thread_pool_destroy`. -/
def destroyedPool (num_threads pipeSlots : Nat) :
    Machine (DestroyedPool β) (DestroyAction β) :=
  { step := DestroyedPool.step num_threads pipeSlots }

/-! ## The messages of a run -/

/-- What has been written to each pipe, and what each worker has decoded. -/
structure MessageLog where
  written : Nat → List PoolMessage
  decoded : Nat → List (Option MessageType × Int)

namespace MessageLog

def empty : MessageLog :=
  { written := fun _ => []
    decoded := fun _ => [] }

def write (log : MessageLog) (i : Nat) (m : PoolMessage) : MessageLog :=
  { log with written := Function.update log.written i (log.written i ++ [m]) }

def read (log : MessageLog) (i : Nat) (msg : ThreadMessage) : MessageLog :=
  { log with decoded := Function.update log.decoded i (log.decoded i ++ [decode msg]) }

end MessageLog

def recordMessages (s : DestroyedPool β) (a : DestroyAction β) (_ : DestroyedPool β)
    (log : MessageLog) : MessageLog :=
  match a with
  | .pool .write =>
      match s.pool.dispatcher with
      | .writing i fd => log.write i (.processPacket fd)
      | _ => log
  | .pool (.read i) =>
      match (s.pool.workers i).pipe with
      | msg :: _ => log.read i msg
      | [] => log
  | .send =>
      match s.destroyer with
      | .sending i => log.write i .shutdown
      | _ => log
  | _ => log

/-- What the shutdown of a worker that has read all its messages should come to. -/
structure ShutsDown (num_threads pipeSlots : Nat) (s : DestroyedPool β) (log : MessageLog)
    (i : Nat) : Prop where
  decoded : List.Forall₂ PoolMessage.DecodesTo (log.written i) (log.decoded i)
  stopped : (s.pool.workers i).running = false
  joined : ∃ t, s.step num_threads pipeSlots .join = some t
  drained : (s.pool.workers i).ring.rb.tail = (s.pool.workers i).ring.rb.head

/-! ## What every message does -/

/-- A worker that has decoded a part of the messages written to it, and runs. -/
structure Deaf (worker : Worker β) (written : List PoolMessage)
    (decoded : List (Option MessageType × Int)) : Prop where
  running : worker.running = true
  messages : ∃ consumed unread, written = consumed ++ unread ∧
    decoded = consumed.map PoolMessage.takenFor ∧ worker.pipe = unread.map PoolMessage.encode

namespace Deaf

variable {worker w : Worker β} {written : List PoolMessage}
  {decoded : List (Option MessageType × Int)}

theorem congr (h : Deaf worker written decoded) (hrunning : w.running = worker.running)
    (hpipe : w.pipe = worker.pipe) : Deaf w written decoded where
  running := hrunning.trans h.running
  messages := by
    rw [hpipe]
    exact h.messages

theorem write (h : Deaf worker written decoded) (m : PoolMessage)
    (hrunning : w.running = worker.running)
    (hpipe : w.pipe = worker.pipe ++ [m.encode]) :
    Deaf w (written ++ [m]) decoded := by
  rcases h.messages with ⟨consumed, unread, hwritten, hdecoded, hold⟩
  refine ⟨hrunning.trans h.running, consumed, unread ++ [m], ?_, hdecoded, ?_⟩
  · rw [hwritten, List.append_assoc]
  · rw [hpipe, hold, List.map_append, List.map_singleton]

theorem read (h : Deaf worker written decoded) {msg : ThreadMessage} {rest : List ThreadMessage}
    (hmsg : worker.pipe = msg :: rest) (hrunning : w.running = true)
    (hpipe : w.pipe = rest) : Deaf w written (decoded ++ [decode msg]) := by
  rcases h.messages with ⟨consumed, unread, hwritten, hdecoded, hold⟩
  rw [hmsg] at hold
  cases unread with
  | nil => cases hold
  | cons m unread =>
      rcases List.cons.inj hold with ⟨hm, hrest⟩
      refine ⟨hrunning, consumed ++ [m], unread, ?_, ?_, hpipe.trans hrest⟩
      · rw [hwritten, List.append_assoc]
        rfl
      · rw [hdecoded, hm, PoolMessage.decode_encode, List.map_append, List.map_singleton]

/-- No message that it reads is taken for `MSG_SHUTDOWN`. -/
theorem ofWord_HI (h : Deaf worker written decoded) {msg : ThreadMessage}
    {rest : List ThreadMessage} (hmsg : worker.pipe = msg :: rest) :
    MessageType.ofWord (HI msg.type) = some .MSG_PROCESS_PACKET := by
  rcases h.messages with ⟨_, unread, _, _, hold⟩
  rw [hmsg] at hold
  cases unread with
  | nil => cases hold
  | cons m unread =>
      rcases List.cons.inj hold with ⟨hm, _⟩
      calc
        MessageType.ofWord (HI msg.type) = (decode m.encode).1 := by rw [hm]; rfl
        _ = some .MSG_PROCESS_PACKET := by rw [PoolMessage.decode_encode, PoolMessage.fst_takenFor]

end Deaf

namespace DestroyedPool

/-- All workers are deaf to the message of `thread_pool_destroy`. -/
structure Inv (s : DestroyedPool β) (log : MessageLog) : Prop where
  workers : ∀ i, Deaf (s.pool.workers i) (log.written i) (log.decoded i)
  sent : ∀ i, s.destroyer = .joining i → .shutdown ∈ log.written i

variable {num_threads pipeSlots : Nat} {s t : DestroyedPool β} {log : MessageLog}

theorem inv_create : (create : DestroyedPool β).Inv .empty where
  workers := fun _ => ⟨rfl, [], [], rfl, rfl, rfl⟩
  sent := by
    intro i h
    cases h

namespace Inv

/-- A step of the pool that neither writes nor reads a message. -/
theorem pool_quiet (hs : s.Inv log) {pool : ThreadPool β}
    (hsame : ∀ i, (pool.workers i).running = (s.pool.workers i).running ∧
      (pool.workers i).pipe = (s.pool.workers i).pipe) : Inv { s with pool := pool } log where
  workers := fun i => (hs.workers i).congr (hsame i).1 (hsame i).2
  sent := hs.sent

/-- A message for worker `i`. -/
theorem written (hs : s.Inv log) {i : Nat} (m : PoolMessage) {pool : ThreadPool β}
    {destroyer : DestroyerPc}
    (hpool : pool.workers = Function.update s.pool.workers i
      { s.pool.workers i with pipe := (s.pool.workers i).pipe ++ [m.encode] })
    (hdestroyer : destroyer = s.destroyer ∨ destroyer = .joining i ∧ m = .shutdown) :
    Inv { pool := pool, destroyer := destroyer } (log.write i m) where
  workers := by
    intro j
    by_cases hj : j = i
    · subst hj
      simpa [MessageLog.write, hpool] using
        (hs.workers j).write m (w := { s.pool.workers j with
          pipe := (s.pool.workers j).pipe ++ [m.encode] }) rfl rfl
    · simpa [MessageLog.write, hpool, hj] using hs.workers j
  sent := by
    intro j hjoin
    by_cases hj : j = i
    · subst hj
      rcases hdestroyer with hsame | ⟨_, rfl⟩
      · have hold := hs.sent j (hsame.symm.trans hjoin)
        simp [MessageLog.write, hold]
      · simp [MessageLog.write]
    · rcases hdestroyer with hsame | ⟨hnew, _⟩
      · simpa [MessageLog.write, hj] using hs.sent j (hsame.symm.trans hjoin)
      · cases hnew.symm.trans hjoin
        exact absurd rfl hj

theorem pool_read (hs : s.Inv log) {i : Nat} {pool : ThreadPool β}
    (h : s.pool.step pipeSlots (.read i) = some pool) :
    Inv { s with pool := pool } (recordMessages s (.pool (.read i)) { s with pool := pool } log) := by
  have hrunning := (hs.workers i).running
  cases hpc : (s.pool.workers i).pc with
  | reading =>
      cases hpipe : (s.pool.workers i).pipe with
      | nil => simp [ThreadPool.step, hrunning, hpc, hpipe] at h
      | cons msg rest =>
          have htype := (hs.workers i).ofWord_HI hpipe
          simp only [ThreadPool.step, hrunning, hpc, hpipe, htype, Option.some.injEq] at h
          subst h
          refine ⟨?_, ?_⟩
          · intro j
            by_cases hj : j = i
            · subst hj
              simpa [recordMessages, hpipe, MessageLog.read] using
                (hs.workers j).read hpipe (w :=
                  { s.pool.workers j with
                    pipe := rest
                    running := true
                    pc := .draining (LO msg.type).toInt }) rfl rfl
            · simpa [recordMessages, hpipe, MessageLog.read, hj] using hs.workers j
          · intro j hjoin
            simpa [recordMessages, hpipe, MessageLog.read] using hs.sent j hjoin
  | draining fd => simp [ThreadPool.step, hrunning, hpc] at h
  | processing fd p => simp [ThreadPool.step, hrunning, hpc] at h

theorem pool_step (hs : s.Inv log) {a : PoolAction β} {pool : ThreadPool β}
    (h : s.pool.step pipeSlots a = some pool) :
    Inv { s with pool := pool } (recordMessages s (.pool a) { s with pool := pool } log) := by
  have hworker : ∀ i worker, worker.running = (s.pool.workers i).running →
      worker.pipe = (s.pool.workers i).pipe → ∀ j,
        (Function.update s.pool.workers i worker j).running = (s.pool.workers j).running ∧
          (Function.update s.pool.workers i worker j).pipe = (s.pool.workers j).pipe := by
    intro i worker hrunning hpipe j
    by_cases hj : j = i
    · subst hj
      simp [hrunning, hpipe]
    · simp [hj]
  cases a with
  | dispatch packet i fd =>
      rcases ThreadPool.step_dispatch.1 h with ⟨_, rfl⟩
      exact hs.pool_quiet fun _ => ⟨rfl, rfl⟩
  | push =>
      rcases ThreadPool.step_push.1 h with ⟨_, i, _, ring, _, _, rfl⟩
      exact hs.pool_quiet (hworker i _ rfl rfl)
  | write =>
      rcases ThreadPool.step_write.1 h with ⟨i, fd, hwriting, _, rfl⟩
      have hrecord : recordMessages s (.pool .write) s log = log.write i (.processPacket fd) := by
        simp [recordMessages, hwriting]
      exact hrecord ▸ hs.written (.processPacket fd) rfl (Or.inl rfl)
  | read i => exact hs.pool_read h
  | pop i =>
      rcases ThreadPool.step_pop.1 h with ⟨_, ring, _, _, rfl⟩
      exact hs.pool_quiet (hworker i _ rfl rfl)
  | processed i =>
      rcases ThreadPool.step_processed.1 h with ⟨_, _, _, rfl⟩
      exact hs.pool_quiet (hworker i _ rfl rfl)

/-- A worker that runs is not joined. -/
theorem not_join (hs : s.Inv log) : s.step num_threads pipeSlots .join = none := by
  cases hd : s.destroyer with
  | joining i => simp [step, hd, (hs.workers i).running]
  | _ => simp [step, hd]

theorem step {a : DestroyAction β} (hs : s.Inv log)
    (h : s.step num_threads pipeSlots a = some t) : t.Inv (recordMessages s a t log) := by
  cases a with
  | pool a =>
      have hpool : ∃ pool, s.pool.step pipeSlots a = some pool ∧ t = { s with pool := pool } := by
        cases a with
        | dispatch packet i fd =>
            cases hd : s.destroyer with
            | notCalled => simpa [DestroyedPool.step, hd, eq_comm] using h
            | _ => simp [DestroyedPool.step, hd] at h
        | _ => simpa [DestroyedPool.step, eq_comm] using h
      rcases hpool with ⟨pool, hstep, rfl⟩
      exact hs.pool_step hstep
  | destroy =>
      cases hd : s.destroyer with
      | notCalled =>
          cases hidle : s.pool.dispatcher with
          | idle =>
              simp only [DestroyedPool.step, hd, hidle, Option.some.injEq] at h
              subst h
              refine ⟨hs.workers, ?_⟩
              intro i hjoin
              by_cases hn : 0 < num_threads <;> simp [nextWorker, hn] at hjoin
          | _ => simp [DestroyedPool.step, hd, hidle] at h
      | _ => simp [DestroyedPool.step, hd] at h
  | send =>
      cases hd : s.destroyer with
      | sending i =>
          by_cases hroom : (s.pool.workers i).pipe.length < pipeSlots
          · simp only [DestroyedPool.step, hd, hroom, if_true, Option.some.injEq] at h
            subst h
            have hrecord : recordMessages s .send s log = log.write i .shutdown := by
              simp [recordMessages, hd]
            exact hrecord ▸ hs.written .shutdown rfl (Or.inr ⟨rfl, rfl⟩)
          · simp [DestroyedPool.step, hd, hroom] at h
      | _ => simp [DestroyedPool.step, hd] at h
  | join =>
      rw [hs.not_join] at h
      cases h

end Inv

theorem inv_of_run {acts : List (DestroyAction β)}
    (h : ((destroyedPool β num_threads pipeSlots).withHistory recordMessages).run
      (create, .empty) acts = some (s, log)) : s.Inv log := by
  have hstart : (create : DestroyedPool β).Inv .empty := inv_create
  refine Machine.invariant_run (fun x : DestroyedPool β × MessageLog => x.1.Inv x.2) ?_ hstart h
  intro x a y hx hstep
  rcases Machine.withHistory_step.1 hstep with ⟨hmoved, hlog⟩
  rw [hlog]
  exact hx.step hmoved

/-- Whatever has been dispatched before, and however the threads are interleaved: a worker decodes
what was dispatched to it, takes the message of `thread_pool_destroy` for a packet from descriptor
1, and runs on, so that `pthread_join` does not return. -/
theorem shutsDown_never {acts : List (DestroyAction β)}
    (h : ((destroyedPool β num_threads pipeSlots).withHistory recordMessages).run
      (create, .empty) acts = some (s, log)) {i : Nat} (hsent : s.destroyer = .joining i)
    (hread : (s.pool.workers i).pipe = []) :
    log.decoded i = (log.written i).map PoolMessage.takenFor ∧
      ¬ List.Forall₂ PoolMessage.DecodesTo (log.written i) (log.decoded i) ∧
      (s.pool.workers i).running = true ∧ s.step num_threads pipeSlots .join = none ∧
      ¬ ShutsDown num_threads pipeSlots s log i := by
  have hs := inv_of_run h
  rcases (hs.workers i).messages with ⟨consumed, unread, hwritten, hdecoded, hpipe⟩
  rw [hread, eq_comm, List.map_eq_nil_iff] at hpipe
  rw [hpipe, List.append_nil] at hwritten
  rw [← hwritten] at hdecoded
  have hwrong : ¬ List.Forall₂ PoolMessage.DecodesTo (log.written i) (log.decoded i) := by
    rw [hdecoded, List.forall₂_map_right_iff, List.forall₂_same]
    intro hall
    exact (PoolMessage.decodesTo_takenFor_iff _).1 (hall _ (hs.sent i hsent)) rfl
  exact ⟨hdecoded, hwrong, (hs.workers i).running, hs.not_join, fun hdown => hwrong hdown.decoded⟩

/-- One packet is dispatched and worked off, then the pool is destroyed. -/
def dispatchAndDestroy : List (DestroyAction Nat) :=
  [.pool (.dispatch 0 0 5), .pool .push, .pool .push, .pool .push, .pool .push, .pool .write,
    .pool (.read 0), .pool (.pop 0), .pool (.pop 0), .pool (.pop 0), .pool (.pop 0),
    .pool (.processed 0), .pool (.pop 0), .pool (.pop 0), .destroy, .send, .pool (.read 0),
    .pool (.pop 0), .pool (.pop 0)]

theorem shutsDown_never_one :
    ∃ s log, ((destroyedPool Nat 1 1).withHistory recordMessages).run (create, .empty)
        dispatchAndDestroy = some (s, log) ∧
      log.decoded 0 = (log.written 0).map PoolMessage.takenFor ∧
      ¬ List.Forall₂ PoolMessage.DecodesTo (log.written 0) (log.decoded 0) ∧
      (s.pool.workers 0).running = true ∧ s.step 1 1 .join = none ∧ ¬ ShutsDown 1 1 s log 0 := by
  have heval : (((destroyedPool Nat 1 1).withHistory recordMessages).run (create, .empty)
      dispatchAndDestroy).map (fun x => (x.1.destroyer, (x.1.pool.workers 0).pipe)) =
        some (.joining 0, []) := by
    decide +kernel
  rcases Option.map_eq_some_iff.1 heval with ⟨⟨s, log⟩, hrun, hobserve⟩
  rcases Prod.mk.inj hobserve with ⟨hsent, hread⟩
  exact ⟨s, log, hrun, shutsDown_never hrun hsent hread⟩

/-- The worker has read the message and its ring is empty, but it has not stopped. -/
theorem not_shutsDown_one :
    ∃ s log, ((destroyedPool Nat 1 1).withHistory recordMessages).run (create, .empty)
        dispatchAndDestroy = some (s, log) ∧
      s.destroyer = .joining 0 ∧ (s.pool.workers 0).pipe = [] ∧
      log.written 0 = [.processPacket 5, .shutdown] ∧ ¬ ShutsDown 1 1 s log 0 := by
  have heval : (((destroyedPool Nat 1 1).withHistory recordMessages).run (create, .empty)
      dispatchAndDestroy).map (fun x => (x.1.destroyer, (x.1.pool.workers 0).pipe,
        x.2.written 0, (x.1.pool.workers 0).running)) =
        some (.joining 0, [], [.processPacket 5, .shutdown], true) := by
    decide +kernel
  rcases Option.map_eq_some_iff.1 heval with ⟨⟨s, log⟩, hrun, hobserve⟩
  simp only [Prod.mk.injEq] at hobserve
  rcases hobserve with ⟨hsent, hread, hwritten, hrunning⟩
  refine ⟨s, log, hrun, hsent, hread, hwritten, ?_⟩
  intro hdown
  rw [hdown.stopped] at hrunning
  cases hrunning

end DestroyedPool

end Utils
end EVdeSwitch
