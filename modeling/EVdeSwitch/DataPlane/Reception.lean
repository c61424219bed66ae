import EVdeSwitch.DataPlane.Engine
import EVdeSwitch.Utils.ThreadPoolPushes

/-!
# Reception — what becomes of a `recv` that fails or falls short

`dispatch_packet` does not look at the result of `recv`.  `compute_packet_hash` does, but it takes
it for a `size_t` and has nothing to refuse a packet with; and `thread_pool_dispatch_packet` pushes
what it is given (`src/data_plane/forwarding_engine.c`).  So only frames are dispatched exactly if
only frames are received.
-/

namespace EVdeSwitch
namespace DataPlane

open EVdeSwitch.Lib
open EVdeSwitch.Utils

/-! ## What the hash reads -/

/-- The offsets of the bytes that `compute_packet_hash` copies, the source before the
destination. -/
def hashReads (packet_len : Nat) : List Nat :=
  if packet_len < ETH_HEADER_LEN then
    []
  else
    (List.range ETH_ADDR_LEN).map (ETH_ADDR_LEN + ·) ++ List.range ETH_ADDR_LEN

theorem hashReads_of_lt {packet_len : Nat} (h : packet_len < ETH_HEADER_LEN) :
    hashReads packet_len = [] :=
  if_pos h

theorem mem_hashReads_of_le {packet_len i : Nat} (h : ETH_HEADER_LEN ≤ packet_len) :
    i ∈ hashReads packet_len ↔ i < ETH_ADDR_LEN + ETH_ADDR_LEN := by
  rw [hashReads, if_neg (Nat.not_lt.2 h), List.mem_append, List.mem_map, List.mem_range]
  constructor
  · rintro (⟨j, hj, rfl⟩ | hi)
    · exact Nat.add_lt_add_left (List.mem_range.1 hj) _
    · exact Nat.lt_add_right _ hi
  · intro hi
    rcases Nat.lt_or_ge i ETH_ADDR_LEN with hlt | hge
    · exact Or.inr hlt
    · refine Or.inl ⟨i - ETH_ADDR_LEN, List.mem_range.2 (Nat.sub_lt_left_of_lt_add hge hi), ?_⟩
      exact Nat.add_sub_cancel' hge

/-- The hash depends on nothing else. -/
theorem computePacketHash_congr {p q : Packet} {packet_len : Nat}
    (h : ∀ i : Fin SIZEOF_PACKET, i.val ∈ hashReads packet_len → p.byte i = q.byte i) :
    computePacketHash p packet_len = computePacketHash q packet_len := by
  rcases Nat.lt_or_ge packet_len ETH_HEADER_LEN with hlt | hge
  · rw [computePacketHash, computePacketHash, if_pos hlt, if_pos hlt]
  · have hread : ∀ i : Fin SIZEOF_PACKET, i.val < 12 → p.byte i = q.byte i :=
      fun i hi => h i ((mem_hashReads_of_le hge).2 hi)
    have hdest : p.dest = q.dest := by
      refine congrArg Vector.ofFn (funext fun i => hread _ ?_)
      exact lt_trans i.isLt (by decide)
    have hsrc : p.src = q.src := by
      refine congrArg Vector.ofFn (funext fun i => hread _ ?_)
      exact Nat.add_lt_add_left i.isLt ETH_ADDR_LEN
    rw [computePacketHash, computePacketHash, hdest, hsrc]

/-! ## The result of `recv` -/

/-- -1, or the number of bytes stored. -/
def recvResult : Option Frame → Int
  | some frame => frame.bytes.length
  | none => -1

/-- A whole Ethernet header has been received. -/
def HasHeader (frame : Option Frame) : Prop :=
  (ETH_HEADER_LEN : Int) ≤ recvResult frame

instance (frame : Option Frame) : Decidable (HasHeader frame) :=
  inferInstanceAs (Decidable (_ ≤ _))

namespace Buffer

variable {b : Buffer}

theorem len_eq (b : Buffer) : b.len = recvResult b.frame := rfl

/-- How many bytes of the buffer `recv` has written. -/
def written (b : Buffer) : Nat :=
  b.len.toNat

/-- The offsets that are read of the buffer for its hash. -/
def reads (b : Buffer) : List Nat :=
  hashReads (b.len % 2 ^ 64).toNat

/-- A length that is not negative is the same as a `size_t`. -/
theorem reads_of_nonneg (h : 0 ≤ b.len) : b.reads = hashReads b.written := by
  have hlt : b.len < 2 ^ 64 := by
    rw [len_eq]
    cases hframe : b.frame with
    | none => decide
    | some frame =>
        have hle := frame.length_le
        have hsize : SIZEOF_PACKET = 1518 := rfl
        simp only [recvResult]
        omega
  rw [reads, written, Int.emod_eq_of_lt h hlt]

/-- The length of a failed `recv` passes for the longest of all, and the hash is that of the former
contents of the memory. -/
theorem reads_of_failed (h : b.frame = none) : b.written = 0 ∧ b.reads ≠ [] := by
  have hlen : b.len = -1 := by rw [len_eq, h]; rfl
  refine ⟨by rw [written, hlen]; rfl, ?_⟩
  rw [reads, hlen]
  decide

/-- So the hash is computed from received bytes exactly if there are any. -/
theorem reads_written_iff : (∀ i ∈ b.reads, i < b.written) ↔ b.frame.isSome = true := by
  cases hframe : b.frame with
  | none =>
      rcases reads_of_failed hframe with ⟨hwritten, hreads⟩
      refine iff_of_false ?_ Bool.false_ne_true
      intro h
      rcases List.exists_mem_of_ne_nil _ hreads with ⟨i, hi⟩
      have hlt := h i hi
      rw [hwritten] at hlt
      exact Nat.not_lt_zero i hlt
  | some frame =>
      have hlen : b.len = frame.bytes.length := by rw [len_eq, hframe]; rfl
      have hwritten : b.written = frame.bytes.length := by rw [written, hlen]; rfl
      refine iff_of_true ?_ rfl
      rw [reads_of_nonneg (by rw [hlen]; exact Int.natCast_nonneg _), hwritten]
      intro i hi
      rcases Nat.lt_or_ge frame.bytes.length ETH_HEADER_LEN with hlt | hge
      · -- too short for the hash
        rw [hashReads_of_lt hlt] at hi
        cases hi
      · exact lt_of_lt_of_le ((mem_hashReads_of_le hge).1 hi) (le_trans (by decide) hge)

theorem isSome_of_hasHeader (h : HasHeader b.frame) : b.frame.isSome = true := by
  cases hframe : b.frame with
  | some frame => rfl
  | none =>
      rw [HasHeader, hframe] at h
      exact absurd h (by decide)

end Buffer

/-! ## Steps and runs -/

/-- The steps of the data plane thread. -/
def EngineAction.OfDispatcher : EngineAction → Prop
  | .recv _ _ _ | .push | .write => True
  | _ => False

/-- If the step is a `recv`, it is one that receives a header. -/
def EngineAction.ReceivesHeader : EngineAction → Prop
  | .recv _ _ frame => HasHeader frame
  | _ => True

namespace Engine

variable {n : ThreadCount} {pipeSlots : Nat} {s t : Engine}

/-- What a step must be like if only received frames are dispatched: a ring has been given nothing
else, the hash of a new buffer is read from what `recv` has written, and the call of
`dispatch_packet` for anything else leaves the rings and the pipes alone. -/
structure OnlyFrames (s : Engine) (a : EngineAction) (t : Engine) : Prop where
  pushed : ∀ i, ∀ b ∈ (t.pool.workers i).ring.pushed, HasHeader b.frame
  reads : ∀ fd stale frame, a = .recv fd stale frame →
    ∀ i ∈ (s.nextBuffer fd stale frame).reads, i < (s.nextBuffer fd stale frame).written
  unchanged : ∀ b, t.received.getLast? = some b → ¬ HasHeader b.frame → a.OfDispatcher →
    ∀ i, (t.pool.workers i).ring.rb = (s.pool.workers i).ring.rb ∧
      (t.pool.workers i).pipe = (s.pool.workers i).pipe

/-- What `recv` has stored, call by call. -/
theorem frames_run {acts : List EngineAction} (h : (engine n pipeSlots).run s acts = some t) :
    t.received.map Buffer.frame = s.received.map Buffer.frame ++
      acts.filterMap fun a => match a with
        | .recv _ _ frame => some frame
        | _ => none := by
  induction acts generalizing s with
  | nil =>
      cases h
      simp
  | cons a acts ih =>
      rcases (engine n pipeSlots).run_cons_eq_some.1 h with ⟨u, hfirst, hrest⟩
      have hstep : s.step n pipeSlots a = some u := hfirst
      rw [ih hrest]
      cases a with
      | recv fd stale frame => simp [received_recv hstep, nextBuffer]
      | _ => simp [received_of_ne_recv (by simp) hstep]

theorem pushInv_step {a : EngineAction} (hs : s.pool.PushInv) (h : s.step n pipeSlots a = some t) :
    t.pool.PushInv := by
  rcases step_pool h with ⟨b, _, hpool⟩ | ⟨_, hpool⟩
  · exact hs.step hpool
  · rw [hpool]
    exact hs

theorem pushInv_of_reaches (h : (engine n pipeSlots).Reaches start s) : s.pool.PushInv :=
  h.invariant (fun s => s.pool.PushInv) (fun _ _ _ hs hstep => pushInv_step hs hstep)
    ThreadPool.pushInv_create

/-- Only whole headers have been received so far. -/
structure Clean (s : Engine) : Prop where
  push : s.pool.PushInv
  received : ∀ b ∈ s.received, HasHeader b.frame

theorem clean_start : Clean start where
  push := ThreadPool.pushInv_create
  received := by
    intro b hb
    cases hb

/-- While only frames are received, only frames are dispatched. -/
theorem Clean.step (hs : s.Clean) {a : EngineAction} (ha : a.ReceivesHeader)
    (h : s.step n pipeSlots a = some t) : t.Clean ∧ OnlyFrames s a t := by
  have hpush : t.pool.PushInv := pushInv_step hs.push h
  have hreceived : ∀ b ∈ t.received, HasHeader b.frame := by
    intro b hb
    cases a with
    | recv fd stale frame =>
        rw [received_recv h, List.mem_append, List.mem_singleton] at hb
        rcases hb with hold | rfl
        · exact hs.received b hold
        · exact ha
    | _ =>
        rw [received_of_ne_recv (by simp) h] at hb
        exact hs.received b hb
  refine ⟨⟨hpush, hreceived⟩, ?_, ?_, ?_⟩
  · intro i b hb
    rcases hpush.mem_dispatched hb with ⟨job, hjob, rfl⟩
    exact hreceived job.item (List.mem_map_of_mem hjob)
  · rintro fd stale frame rfl
    exact Buffer.reads_written_iff.2 (Buffer.isSome_of_hasHeader ha)
  · -- there is no such call
    intro b hlast hb
    exact absurd (hreceived b (List.mem_of_getLast? hlast)) hb

/-- Once the calls of `dispatch_packet` are over, all the buffers are in the rings. -/
theorem receivesHeader_of_onlyFrames {acts : List EngineAction}
    (hrun : (engine n pipeSlots).run start acts = some s) (hidle : s.pool.dispatcher = .idle)
    (hsteps : (engine n pipeSlots).EveryStep OnlyFrames start acts) :
    ∀ a ∈ acts, a.ReceivesHeader := by
  intro a ha
  cases a with
  | recv fd stale frame =>
      have hmem : frame ∈ s.received.map Buffer.frame := by
        rw [frames_run hrun, List.mem_append]
        exact Or.inr (List.mem_filterMap.2 ⟨_, ha, rfl⟩)
      rcases List.mem_map.1 hmem with ⟨b, hb, rfl⟩
      rcases List.mem_map.1 hb with ⟨job, hjob, rfl⟩
      have hpushed := (pushInv_of_reaches ⟨acts, hrun⟩).mem_pushed hidle hjob
      rcases hsteps.last hrun (List.ne_nil_of_mem ha) with ⟨t, b, honly⟩
      exact honly.pushed _ _ hpushed
  | _ => trivial

/-- Whatever `recv` returns and whatever the workers do meanwhile: while it returns whole headers,
only received frames are dispatched; and once the calls of `dispatch_packet` are over, only received
frames have been dispatched if and only if all the calls of `recv` returned whole headers. -/
theorem onlyFrames_iff_receivesHeader {acts : List EngineAction}
    (hrun : (engine n pipeSlots).run start acts = some s) :
    ((∀ a ∈ acts, a.ReceivesHeader) → (engine n pipeSlots).EveryStep OnlyFrames start acts) ∧
      (s.pool.dispatcher = .idle →
        ((engine n pipeSlots).EveryStep OnlyFrames start acts ↔
          ∀ a ∈ acts, a.ReceivesHeader)) := by
  have hsufficient : (∀ a ∈ acts, a.ReceivesHeader) →
      (engine n pipeSlots).EveryStep OnlyFrames start acts := by
    intro hok
    refine Machine.everyStep_of_forall Clean ?_ clean_start hok
    intro s a t hs ha h
    exact hs.step ha h
  exact ⟨hsufficient, fun hidle => ⟨receivesHeader_of_onlyFrames hrun hidle, hsufficient⟩⟩

/-- One call of `dispatch_packet`, up to the message to the worker. -/
def dispatchPacket (fd : Fd) (frame : Option Frame) : List EngineAction :=
  [.recv fd Packet.zeroed frame, .push, .push, .push, .push, .write]

/-- A frame that has been received. -/
theorem onlyFrames_iff_receivesHeader_frame :
    ∃ (n : ThreadCount) (s : Engine),
      (engine n 4).run start (dispatchPacket 7 (some stationFrame)) = some s ∧
      s.pool.dispatcher = .idle ∧
      (engine n 4).EveryStep OnlyFrames start (dispatchPacket 7 (some stationFrame)) := by
  have heval : ((engine ⟨1, by decide, by decide⟩ 4).run start
      (dispatchPacket 7 (some stationFrame))).map (fun s => s.pool.dispatcher) = some .idle := by
    decide +kernel
  rcases Option.map_eq_some_iff.1 heval with ⟨s, hrun, hidle⟩
  refine ⟨_, s, hrun, hidle, (onlyFrames_iff_receivesHeader hrun).1 ?_⟩
  intro a ha
  simp only [dispatchPacket, List.mem_cons, List.not_mem_nil, or_false] at ha
  rcases ha with rfl | rfl | rfl | rfl | rfl | rfl
  · exact (by decide : HasHeader (some stationFrame))
  all_goals trivial

/-- A datagram of one byte. -/
def shortDatagram : Frame :=
  { bytes := [2]
    length_le := by decide }

/-- It is pushed to the ring of a worker, and so is the buffer of a `recv` that has failed, whose
hash is that of bytes that have never been received. -/
theorem not_onlyFrames_short :
    ∃ n : ThreadCount,
      ¬ (engine n 4).EveryStep OnlyFrames start (dispatchPacket 7 (some shortDatagram)) ∧
      ¬ (engine n 4).EveryStep OnlyFrames start (dispatchPacket 7 none) := by
  refine ⟨⟨1, by decide, by decide⟩, ?_, ?_⟩
  · have heval : ((engine ⟨1, by decide, by decide⟩ 4).run start
        (dispatchPacket 7 (some shortDatagram))).map (fun s => s.pool.dispatcher) =
          some .idle := by
      decide +kernel
    rcases Option.map_eq_some_iff.1 heval with ⟨s, hrun, hidle⟩
    intro hsteps
    have hheader : HasHeader (some shortDatagram) := receivesHeader_of_onlyFrames hrun hidle hsteps
      (.recv 7 Packet.zeroed (some shortDatagram)) List.mem_cons_self
    exact absurd hheader (by decide)
  · have heval : ((engine ⟨1, by decide, by decide⟩ 4).run start
        (dispatchPacket 7 none)).map (fun s => s.pool.dispatcher) = some .idle := by
      decide +kernel
    rcases Option.map_eq_some_iff.1 heval with ⟨s, hrun, hidle⟩
    intro hsteps
    have hheader : HasHeader none := receivesHeader_of_onlyFrames hrun hidle hsteps
      (.recv 7 Packet.zeroed none) List.mem_cons_self
    exact absurd hheader (by decide)

end Engine

end DataPlane
end EVdeSwitch
