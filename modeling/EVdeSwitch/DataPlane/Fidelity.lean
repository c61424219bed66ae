import EVdeSwitch.DataPlane.Engine

/-!
# Fidelity — are the frames sent the frames received?

`dispatch_packet` learns the length of a frame from `recv` and forgets it: both ways of sending
pass on `sizeof(packet)` bytes from the buffer.  So a frame is sent as it was received if it fills
the buffer, and otherwise with whatever the memory held behind it.
-/

namespace EVdeSwitch
namespace DataPlane

open EVdeSwitch.ControlPlane
open EVdeSwitch.Io
open EVdeSwitch.Lib
open EVdeSwitch.Utils

/-- The EtherType of the received bytes is that of IPv6. -/
def Frame.IsIPv6 (f : Frame) : Prop :=
  f.bytes[12]? = some 0x86 ∧ f.bytes[13]? = some 0xdd

theorem isIPv6_receive_iff (stale : Packet) {f : Frame} (hf : ETH_HEADER_LEN ≤ f.bytes.length) :
    isIPv6 (stale.receive f) = true ↔ f.IsIPv6 := by
  have hlen : 14 ≤ f.bytes.length := hf
  -- the header has been received, so the type is not that of the old contents
  have h12 : (stale.receive f).byte ⟨12, by decide⟩ = f.bytes.get ⟨12, by omega⟩ :=
    Packet.byte_receive_of_lt stale f (by simp only; omega)
  have h13 : (stale.receive f).byte ⟨13, by decide⟩ = f.bytes.get ⟨13, by omega⟩ :=
    Packet.byte_receive_of_lt stale f (by simp only; omega)
  have hget12 : f.bytes[12]? = some (f.bytes.get ⟨12, by omega⟩) := by
    simp
  have hget13 : f.bytes[13]? = some (f.bytes.get ⟨13, by omega⟩) := by
    simp
  rw [isIPv6, decide_eq_true_iff, Packet.proto, Prod.mk.injEq, h12, h13, Frame.IsIPv6, hget12,
    hget13, Option.some.injEq, Option.some.injEq]

/-! ## What is sent -/

section Sending

variable {endpoints : List Endpoint} {mt mt' : MacTable} {ep : Endpoint} {p : Packet} {now : Nat}
variable {sendFails : Bool} {sent : List Transmission}

theorem floodPacket_bytes {origin_port : Nat} :
    ∀ tr ∈ floodPacket endpoints p origin_port, tr.bytes = p.bytes := by
  intro tr htr
  rcases List.mem_map.1 htr with ⟨ep, _, rfl⟩
  rfl

theorem sendPacket_bytes {port : Int} (h : sendPacket endpoints p port sendFails = .ok sent) :
    ∀ tr ∈ sent, tr.bytes = p.bytes := by
  intro tr htr
  rcases sendPacket_ok h with ⟨rfl, _⟩ | ⟨ep, _, _, rfl⟩
  · cases htr
  · rw [List.mem_singleton.1 htr]

/-- Whatever is sent for a packet is the whole buffer, and nothing is sent for IPv6. -/
theorem forwardPacket_bytes
    (h : forwardPacket endpoints mt ep p now sendFails = .ok (mt', sent)) :
    ∀ tr ∈ sent, tr.bytes = p.bytes ∧ isIPv6 p = false := by
  intro tr htr
  rcases forwardPacket_ok h with ⟨_, rfl | ⟨hv6, rfl | ⟨port, hsend⟩⟩⟩
  · cases htr
  · exact ⟨floodPacket_bytes tr htr, hv6⟩
  · exact ⟨sendPacket_bytes hsend tr htr, hv6⟩

/-- With an empty table every packet but an IPv6 one is flooded. -/
theorem forwardPacket_create (hv6 : isIPv6 p = false) :
    forwardPacket endpoints macTableCreate ep p now sendFails =
      .ok (learn macTableCreate ep p now, floodPacket endpoints p ep.port) := by
  cases hgroup : isBroadcast p.dest with
  | true => exact forwardPacket_of_isBroadcast hv6 hgroup
  | false => exact forwardPacket_of_unknown hv6 hgroup rfl

end Sending

namespace Engine

variable {n : ThreadCount} {pipeSlots : Nat} {s t : Engine}

/-- Every call of `send` passed on the whole buffer of a packet other than IPv6. -/
def WholeBuffers (s : Engine) : Prop :=
  ∀ c ∈ s.sent, c.transmission.bytes = c.buffer.p.bytes ∧ isIPv6 c.buffer.p = false

theorem wholeBuffers_step {a : EngineAction} (hs : s.WholeBuffers)
    (h : s.step n pipeSlots a = some t) : t.WholeBuffers := by
  cases a with
  | process i now sendFails =>
      rcases step_process.1 h with ⟨fd, b, pool, ⟨mt, sent⟩, _, _, hresult, rfl⟩
      intro c hc
      -- only a worker that has processed a packet adds to what is sent
      rcases List.mem_append.1 hc with hold | hnew
      · exact hs c hold
      · rcases List.mem_map.1 hnew with ⟨tr, htr, rfl⟩
        unfold processPacket at hresult
        cases hep : fdTableLookup s.fdt fd with
        | none =>
            simp only [hep] at hresult
            cases hresult
        | some ep =>
            simp only [hep] at hresult
            exact forwardPacket_bytes hresult tr htr
  | control fdt endpoints =>
      cases h
      exact hs
  | _ =>
      simp only [step, poolAction, Option.bind_some, Option.map_eq_some_iff] at h
      rcases h with ⟨pool, _, rfl⟩
      exact hs

theorem wholeBuffers_of_reaches (h : (engine n pipeSlots).Reaches start s) : s.WholeBuffers :=
  h.invariant WholeBuffers (fun _ _ _ hs hstep => wholeBuffers_step hs hstep) (by
    intro c hc
    cases hc)

/-! ## A run that sends a given frame -/

/-- An idle engine gets a packet as far as its worker. -/
theorem exists_run_throughEngine (n : ThreadCount) (hslots : 0 < pipeSlots) (s : Engine)
    (hpool : s.pool = ThreadPool.create) (fd : Fd) (stale : Packet) (frame : Option Frame) :
    ∃ (i : Nat) (as : List EngineAction) (pool : ThreadPool Buffer),
      (engine n pipeSlots).run s (.recv fd stale frame :: as) = some { s with pool := pool } ∧
      (pool.workers i).pc = .processing fd.toInt (some (s.nextBuffer fd stale frame)) := by
  have hpush : Mirrors n pipeSlots .push .push := fun _ => rfl
  have hwrite : Mirrors n pipeSlots .write .write := fun _ => rfl
  have hread : ∀ i, Mirrors n pipeSlots (.read i) (.read i) := fun _ _ => rfl
  have hpop : ∀ i, Mirrors n pipeSlots (.pop i) (.pop i) := fun _ _ => rfl
  have hmirrors : ∀ i, List.Forall₂ (Mirrors n pipeSlots)
      [.push, .push, .push, .push, .write, .read i, .pop i, .pop i, .pop i, .pop i]
      [.push, .push, .push, .push, .write, .read i, .pop i, .pop i, .pop i, .pop i] := by
    intro i
    simp only [List.forall₂_cons, List.forall₂_nil_left_iff, hpush, hwrite, hread, hpop, and_self]
  rcases ThreadPool.exists_run_throughPool hslots (s.nextBuffer fd stale frame)
    ((s.nextBuffer fd stale frame).threadIdx n.val) fd with ⟨pool, hrun, hpc⟩
  rw [← hpool] at hrun
  rcases (threadPool Buffer pipeSlots).run_cons_eq_some.1 hrun with ⟨pool₁, hdispatch, hrest⟩
  have hrecv : (engine n pipeSlots).step s (.recv fd stale frame) = some { s with pool := pool₁ } :=
    step_recv.2 ⟨pool₁, hdispatch, rfl⟩
  have hothers : (engine n pipeSlots).run { s with pool := pool₁ } _ =
      some { s with pool := pool } := run_of_mirrors (hmirrors _) hrest
  exact ⟨_, _, pool, Machine.run_cons_of_step _ hrecv hothers, hpc⟩

theorem exists_step_processed (pipeSlots : Nat) {pool : ThreadPool Buffer} {i : Nat} {fd : Int}
    {p : Option Buffer} (hpc : (pool.workers i).pc = .processing fd p) :
    ∃ pool', pool.step pipeSlots (.processed i) = some pool' :=
  ⟨_, ThreadPool.step_processed.2 ⟨fd, p, hpc, rfl⟩⟩

/-- Every frame but an IPv6 one is sent in some run: it is flooded to the second of two
endpoints. -/
theorem exists_copy (n : ThreadCount) (hslots : 0 < pipeSlots) {f : Frame}
    (hf : ETH_HEADER_LEN ≤ f.bytes.length) (hv6 : ¬f.IsIPv6) :
    ∃ s, (engine n pipeSlots).Reaches start s ∧ ∃ c ∈ s.sent, c.buffer.frame = some f := by
  let ep : Endpoint := { port := 1, fd_data := 7 }
  let other : Endpoint := { port := 2, fd_data := 8 }
  let s₀ : Engine := { start with
    fdt := (fdTableInsert fdTableCreate ep.fd_data ep true).2
    endpoints := [other, ep] }
  have hcontrol : (engine n pipeSlots).step start
      (.control (fdTableInsert fdTableCreate ep.fd_data ep true).2 [other, ep]) = some s₀ := rfl
  -- the packet reaches its worker
  rcases exists_run_throughEngine n hslots s₀ rfl ep.fd_data Packet.zeroed (some f) with
    ⟨i, as, pool, hrun, hpc⟩
  have hv6' : isIPv6 (Packet.zeroed.receive f) = false := by
    rw [Bool.eq_false_iff, Ne, isIPv6_receive_iff Packet.zeroed hf]
    exact hv6
  have hlookup : fdTableLookup s₀.fdt ep.fd_data.toInt = some ep := rfl
  have hresult : processPacket s₀.fdt s₀.endpoints s₀.mt ep.fd_data.toInt
      (s₀.nextBuffer ep.fd_data Packet.zeroed (some f)).p 0 false =
        .ok (learn macTableCreate ep (Packet.zeroed.receive f) 0,
          [⟨other.fd_data, (Packet.zeroed.receive f).bytes⟩]) := by
    simp only [processPacket, hlookup]
    exact forwardPacket_create hv6'
  -- and the worker floods it, as the table is empty
  rcases exists_step_processed pipeSlots hpc with ⟨pool', hpool'⟩
  let s₂ : Engine := { s₀ with
    pool := pool'
    mt := learn macTableCreate ep (Packet.zeroed.receive f) 0
    sent := [⟨s₀.nextBuffer ep.fd_data Packet.zeroed (some f),
      ⟨other.fd_data, (Packet.zeroed.receive f).bytes⟩⟩] }
  have hprocess : step n pipeSlots { s₀ with pool := pool } (.process i 0 false) = some s₂ :=
    step_process.2 ⟨_, _, pool', _, hpc, hpool', hresult, rfl⟩
  have hlast : (engine n pipeSlots).Reaches { s₀ with pool := pool } s₂ :=
    ⟨[.process i 0 false], Machine.run_cons_of_step _ hprocess rfl⟩
  have hreach : (engine n pipeSlots).Reaches start s₂ :=
    ((Machine.Reaches.single hcontrol).trans ⟨_, hrun⟩).trans hlast
  exact ⟨s₂, hreach, _, List.mem_singleton.2 rfl, rfl⟩

/-- Every copy that is sent of a frame is the frame itself, in every run, exactly if the frame
fills the buffer or is an IPv6 frame, which is not sent at all. -/
theorem copies_faithful_iff (n : ThreadCount) (pipeSlots : ℕ+) (f : Frame)
    (hf : ETH_HEADER_LEN ≤ f.bytes.length) :
    (∀ s, (engine n pipeSlots).Reaches start s → ∀ c ∈ s.sent, c.buffer.frame = some f →
      c.transmission.bytes = f.bytes) ↔
    f.bytes.length = SIZEOF_PACKET ∨ f.IsIPv6 := by
  constructor
  · -- the run of `exists_copy` has a copy, as long as the buffer
    intro h
    by_contra hcon
    rw [not_or] at hcon
    rcases exists_copy n pipeSlots.pos hf hcon.2 with ⟨s, hreach, c, hc, hframe⟩
    have hbytes := h s hreach c hc hframe
    have hwhole := (wholeBuffers_of_reaches hreach c hc).1
    rw [hbytes, Buffer.p, hframe] at hwhole
    exact hcon.1 ((Packet.bytes_receive_eq_iff c.buffer.stale f).1 hwhole.symm)
  · intro h s hreach c hc hframe
    rcases wholeBuffers_of_reaches hreach c hc with ⟨hwhole, hv6⟩
    rw [hwhole]
    simp only [Buffer.p, hframe] at hv6 ⊢
    -- a frame that fills the buffer leaves nothing of the old contents
    rcases h with hfull | hv6'
    · exact (Packet.bytes_receive_eq_iff c.buffer.stale f).2 hfull
    · rw [(isIPv6_receive_iff c.buffer.stale hf).2 hv6'] at hv6
      cases hv6

/-- A frame of the full size. -/
theorem copies_faithful_full_frame :
    ∃ (n : ThreadCount) (f : Frame), f.bytes.length = 1518 ∧
      ∀ s, (engine n 4).Reaches start s → ∀ c ∈ s.sent, c.buffer.frame = some f →
        c.transmission.bytes = f.bytes := by
  have hlen : (List.replicate SIZEOF_PACKET (0 : UInt8)).length = SIZEOF_PACKET :=
    List.length_replicate
  refine ⟨⟨1, by decide, by decide⟩, ⟨List.replicate SIZEOF_PACKET 0, hlen.le⟩, hlen, ?_⟩
  exact (copies_faithful_iff ⟨1, by decide, by decide⟩ 4 ⟨List.replicate SIZEOF_PACKET 0, hlen.le⟩
    (le_of_le_of_eq (by decide) hlen.symm)).2 (Or.inl hlen)

/-- A frame of 14 bytes, flooded to the other one of two endpoints. -/
def shortFrame : List EngineAction :=
  [.control (fdTableInsert fdTableCreate 7 ⟨1, 7⟩ true).2
      [⟨2, 8⟩, ⟨1, 7⟩],
    .recv 7 Packet.zeroed (some stationFrame), .push, .push, .push, .push, .write,
    .read 0, .pop 0, .pop 0, .pop 0, .pop 0, .process 0 1000 false]

theorem copy_longer_than_frame :
    ∃ (n : ThreadCount) (s : Engine), (engine n 4).run start shortFrame = some s ∧
      ∃ c ∈ s.sent, c.buffer.frame = some stationFrame ∧
        c.transmission.bytes ≠ stationFrame.bytes := by
  have heval : ((engine ⟨1, by decide, by decide⟩ 4).run start shortFrame).map
      (fun s => s.sent.any fun c => decide (c.buffer.frame = some stationFrame) &&
        decide (c.transmission.bytes.length = 1518)) = some true := by
    decide +kernel
  rcases Option.map_eq_some_iff.1 heval with ⟨s, hrun, hany⟩
  rcases List.any_eq_true.1 hany with ⟨c, hc, hcopy⟩
  simp only [Bool.and_eq_true, decide_eq_true_eq] at hcopy
  refine ⟨_, s, hrun, c, hc, hcopy.1, ?_⟩
  intro heq
  rw [heq] at hcopy
  exact absurd hcopy.2 (by decide)

end Engine

end DataPlane
end EVdeSwitch
