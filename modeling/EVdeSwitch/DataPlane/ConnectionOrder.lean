import EVdeSwitch.DataPlane.Engine
import EVdeSwitch.Lib.ServiceOrder

/-!
# ConnectionOrder — the frames of a connection stay in order

Frames with the same two addresses have the same hash, so they go through the ring of the same
worker, and a ring keeps its order.
-/

namespace EVdeSwitch
namespace DataPlane

open EVdeSwitch.ControlPlane
open EVdeSwitch.Io
open EVdeSwitch.Lib
open EVdeSwitch.Utils

namespace Packet

/-- The addresses are the first twelve bytes of the frame that was received. -/
theorem addresses_receive (stale stale' : Packet) {f g : Frame}
    (hf : ETH_HEADER_LEN ≤ f.bytes.length) (hg : ETH_HEADER_LEN ≤ g.bytes.length)
    (h : f.bytes.take 12 = g.bytes.take 12) :
    (stale.receive f).dest = (stale'.receive g).dest ∧
      (stale.receive f).src = (stale'.receive g).src := by
  have hf' : 14 ≤ f.bytes.length := hf
  have hg' : 14 ≤ g.bytes.length := hg
  have hbyte : ∀ i : Fin SIZEOF_PACKET, i.val < 12 →
      (stale.receive f).byte i = (stale'.receive g).byte i := by
    intro i hi
    rw [byte_receive_of_lt stale f (by omega), byte_receive_of_lt stale' g (by omega)]
    have htake := congrArg (fun l : List UInt8 => l[i.val]?) h
    simpa [List.getElem?_take, hi, List.getElem?_eq_getElem (show i.val < f.bytes.length by omega),
      List.getElem?_eq_getElem (show i.val < g.bytes.length by omega)] using htake
  constructor
  · refine congrArg Vector.ofFn (funext fun i => hbyte _ ?_)
    exact lt_trans i.isLt (by decide)
  · refine congrArg Vector.ofFn (funext fun i => hbyte _ ?_)
    have hi : i.val < 6 := i.isLt
    simp only [ETH_ADDR_LEN]
    omega

end Packet

/-- Two frames, each with a whole header, from the same source to the same destination. -/
def SameConnection (b c : Buffer) : Prop :=
  ∃ f g, b.frame = some f ∧ c.frame = some g ∧ ETH_HEADER_LEN ≤ f.bytes.length ∧
    ETH_HEADER_LEN ≤ g.bytes.length ∧ f.bytes.take 12 = g.bytes.take 12

theorem Buffer.hash_of_frame {b : Buffer} {f : Frame} (hb : b.frame = some f)
    (hf : ETH_HEADER_LEN ≤ f.bytes.length) :
    b.hash = toeplitzHash toeplitz_key
      ((b.stale.receive f).src.toList ++ (b.stale.receive f).dest.toList) := by
  have hle := f.length_le
  have hsize : SIZEOF_PACKET = 1518 := rfl
  -- a length is not changed by the conversion to `size_t`
  have hlen : ((f.bytes.length : Int) % 2 ^ 64).toNat = f.bytes.length := by omega
  rw [Buffer.hash, Buffer.p, Buffer.len, hb]
  simp only [hlen, computePacketHash, if_neg (Nat.not_lt.2 hf)]

/-- The frames of a connection are given to one worker. -/
theorem SameConnection.threadIdx_eq {b c : Buffer} (h : SameConnection b c) (n : Nat) :
    b.threadIdx n = c.threadIdx n := by
  rcases h with ⟨f, g, hb, hc, hf, hg, htake⟩
  rcases Packet.addresses_receive b.stale c.stale hf hg htake with
    ⟨hdest, hsrc⟩
  rw [Buffer.threadIdx, Buffer.threadIdx, Buffer.hash_of_frame hb hf, Buffer.hash_of_frame hc hg,
    hdest, hsrc]

namespace Engine

variable {n : ThreadCount} {pipeSlots : Nat} {s : Engine} {c : WorkQueues Nat Buffer Fd}

theorem ReceiptInv.seq_pairwise (hs : ReceiptInv n s) :
    (s.pool.dispatched.map fun job => job.item.seq).Pairwise (· < ·) := by
  have hseq : (s.pool.dispatched.map fun job => job.item.seq) = List.range s.received.length := by
    rw [← hs.seq, received, List.map_map]
    rfl
  rw [hseq]
  exact List.pairwise_lt_range

/-- What a worker has popped, it was given. -/
theorem Refines.mem_received (hr : Refines s c) (hc : c.Inv) (hs : ReceiptInv n s)
    {job : Job Nat Buffer Fd} (hjob : job ∈ c.served) :
    job.item ∈ s.received ∧ job.index = job.item.threadIdx n.val := by
  rcases hc.exists_submitted hjob with ⟨job', hjob', hindex, hitem⟩
  have hdispatched : job' ∈ s.pool.dispatched := by
    rw [hr.dispatched]
    exact hjob'
  refine ⟨List.mem_map.2 ⟨job', hdispatched, hitem⟩, ?_⟩
  rw [← hindex, ← hitem]
  exact hs.index job' hdispatched

/-- In every interleaving, each buffer is popped at most once, by the worker its hash picks, and
the frames of a connection are popped in the order of their receipt, without a gap. -/
theorem connection_order (n : ThreadCount) (pipeSlots : Nat) (s : Engine)
    (h : (engine n pipeSlots).Reaches start s) :
    (s.pool.popped.map Popped.p).Nodup ∧
    (∀ d ∈ s.pool.popped, ∃ b ∈ s.received, d.p = some b ∧
      d.thread_idx = b.threadIdx n.val ∧ d.thread_idx < n.val) ∧
    s.pool.popped.Pairwise (fun d e => ∀ b c, d.p = some b → e.p = some c →
      SameConnection b c → d.thread_idx = e.thread_idx ∧ b.seq < c.seq) ∧
    (∀ e ∈ s.pool.popped, ∀ b ∈ s.received, ∀ c, e.p = some c → SameConnection b c →
      b.seq < c.seq → ∃ d ∈ s.pool.popped, d.p = some b) := by
  rcases exists_refines_of_reaches h with ⟨c, hreach, hr⟩
  have hc : c.Inv := WorkQueues.inv_of_reaches hreach
  have hs : ReceiptInv n s := receiptInv_of_reaches h
  -- the number of its receipt is the rank of a buffer
  have hseq : (c.submitted.map fun job => job.item.seq).Pairwise (· < ·) := by
    rw [← hr.dispatched]
    exact hs.seq_pairwise
  have hordered := hc.served_pairwise hseq
  have hgiven : ∀ job ∈ c.served, job.item ∈ s.received ∧ job.index = job.item.threadIdx n.val :=
    fun job hjob => hr.mem_received hc hs hjob
  rw [hr.popped]
  refine ⟨?_, ?_, ?_, ?_⟩
  · -- two pops of one buffer would be by one worker, and the buffer received before itself
    rw [List.map_map, List.Nodup, List.pairwise_map]
    refine hordered.imp_of_mem ?_
    intro a b ha hb hlt heq
    have hitem : a.item = b.item := by
      simpa [ThreadPool.jobPopped] using heq
    have hindex : a.index = b.index := by
      rw [(hgiven a ha).2, (hgiven b hb).2, hitem]
    exact absurd (hlt hindex) (by rw [hitem]; exact lt_irrefl _)
  · intro d hd
    rcases List.mem_map.1 hd with ⟨job, hjob, rfl⟩
    refine ⟨job.item, (hgiven job hjob).1, rfl, (hgiven job hjob).2, ?_⟩
    -- a hash modulo the number of workers
    have hlt : job.index < n.val := by
      rw [(hgiven job hjob).2]
      exact Nat.mod_lt _ n.pos
    exact hlt
  · -- one connection, one hash, one worker
    rw [List.pairwise_map]
    refine hordered.imp_of_mem ?_
    intro a b ha hb hlt p q hp hq hsame
    cases hp
    cases hq
    have hindex : a.index = b.index := by
      rw [(hgiven a ha).2, (hgiven b hb).2]
      exact hsame.threadIdx_eq n.val
    exact ⟨hindex, hlt hindex⟩
  · -- the queue of that worker does not let one frame overtake another
    intro e he b hb q hq hsame hlt
    rcases List.mem_map.1 he with ⟨job, hjob, rfl⟩
    cases hq
    rcases List.mem_map.1 hb with ⟨job', hjob', rfl⟩
    have hindex : job'.index = job.index := by
      rw [hs.index job' hjob', (hgiven job hjob).2]
      exact hsame.threadIdx_eq n.val
    rw [hr.dispatched] at hjob'
    rcases hc.served_of_rank_lt hseq hjob hjob' hindex hlt with ⟨job'', hjob'', _, hitem⟩
    exact ⟨_, List.mem_map_of_mem hjob'', congrArg some hitem⟩

/-- Two frames of one station, the second push overlapping with the pop of the first frame, which
is processed before the second one is popped. -/
def twoFrames : List EngineAction :=
  [.control (fdTableInsert fdTableCreate 7 ⟨1, 7⟩ true).2 [],
    .recv 7 Packet.zeroed (some stationFrame), .push, .push, .push, .push, .write,
    .recv 7 Packet.zeroed (some stationFrame), .push, .push, .read 0, .pop 0, .pop 0,
    .push, .push, .pop 0, .pop 0, .process 0 1000 false, .pop 0, .pop 0, .pop 0, .pop 0]

theorem connection_order_two_frames :
    ∃ (n : ThreadCount) (s : Engine), (engine n 4).run start twoFrames = some s ∧
      s.pool.popped.map Popped.thread_idx = [0, 0] ∧ (s.pool.popped.map Popped.p).Nodup := by
  have heval : ((engine ⟨2, by decide, by decide⟩ 4).run start twoFrames).map
      (fun s => s.pool.popped.map Popped.thread_idx) = some [0, 0] := by
    decide +kernel
  rcases Option.map_eq_some_iff.1 heval with ⟨s, hrun, hindex⟩
  exact ⟨_, s, hrun, hindex, (connection_order _ 4 s ⟨twoFrames, hrun⟩).1⟩

end Engine

end DataPlane
end EVdeSwitch
