import EVdeSwitch.DataPlane.Engine
import EVdeSwitch.Utils.ThreadPoolCreate

/-!
# EngineInit — does every packet find a worker?

`fw_engine_init` takes the number of threads as an `int`, just as the option gives it, and
`dispatch_packet` takes the hash modulo this number for the index of a worker
(`src/data_plane/forwarding_engine.c`).  With one to four threads and no failed `pipe`, whatever
index comes out is that of a live worker; with any other number that is accepted, or a pipe that
failed, some packet has none.
-/

namespace EVdeSwitch
namespace DataPlane

open EVdeSwitch.Io
open EVdeSwitch.Lib
open EVdeSwitch.Utils

/-! ## `fw_engine_init` and the index -/

/-- What it is if no option gives it. -/
def worker_threads : BitVec 32 := 4

/-- The result, which is always 0, and `pool`; `toeplitz_init` does nothing.  As a `size_t` the
`int` is extended by its sign. -/
def fwEngineInit (pipe : Nat → Option (Fd × Fd)) (num_threads : BitVec 32) :
    Except Halt (Int × Option (CreatedPool Buffer)) :=
  (threadPoolCreate pipe (num_threads.signExtend 64)).map fun pool => (0, pool)

/-- `int thread_idx = hash % pool->num_threads`, back in a `size_t`. -/
def poolIdx (hash : UInt32) (num_threads : BitVec 64) : BitVec 64 :=
  let thread_idx : BitVec 32 := (hash.toBitVec.setWidth 64 % num_threads).setWidth 32
  thread_idx.signExtend 64

/-- The pool has been created within its bounds, and whatever a packet is hashed to, it goes to a
worker that has been created. -/
structure DispatchesLive (r : Except Halt (Int × Option (CreatedPool Buffer))) : Prop where
  within_bounds : r ≠ .error .crash
  live : ∀ result pool, r = .ok (result, some pool) → ∀ b : Buffer,
    (poolIdx b.hash pool.num_threads).toNat < MAX_THREADS ∧
      (pool.workers (poolIdx b.hash pool.num_threads).toNat).Live

/-! ## Arithmetic -/

section Arithmetic

/-- An index within an `int` survives its conversions. -/
theorem toNat_poolIdx (hash : UInt32) {num_threads : BitVec 64} (hpos : 0 < num_threads.toNat)
    (hle : num_threads.toNat ≤ 2 ^ 31) :
    (poolIdx hash num_threads).toNat = hash.toNat % num_threads.toNat := by
  have hlt : hash.toNat % num_threads.toNat < 2 ^ 31 := lt_of_lt_of_le (Nat.mod_lt _ hpos) hle
  have hwide : (hash.toBitVec.setWidth 64).toNat = hash.toNat := by
    rw [BitVec.toNat_setWidth, UInt32.toNat_toBitVec]
    exact Nat.mod_eq_of_lt (lt_trans hash.toNat_lt (by decide))
  have hint : ((hash.toBitVec.setWidth 64 % num_threads).setWidth 32).toNat =
      hash.toNat % num_threads.toNat := by
    rw [BitVec.toNat_setWidth, BitVec.toNat_umod, hwide]
    exact Nat.mod_eq_of_lt (lt_trans hlt (by decide))
  have hmsb : ((hash.toBitVec.setWidth 64 % num_threads).setWidth 32).msb = false := by
    rw [BitVec.msb_eq_false_iff_two_mul_lt, hint]
    omega
  rw [poolIdx, BitVec.signExtend_eq_setWidth_of_msb_false hmsb, BitVec.toNat_setWidth, hint]
  exact Nat.mod_eq_of_lt (lt_trans hlt (by decide))

variable {count : BitVec 32}

/-- Extended by its sign, a negative number is far too large. -/
theorem toNat_signExtend_le_iff :
    (count.signExtend 64 ≠ 0 ∧ (count.signExtend 64).toNat ≤ MAX_THREADS) ↔
      1 ≤ count.toInt ∧ count.toInt ≤ MAX_THREADS := by
  have hint : (count.signExtend 64).toInt = count.toInt :=
    BitVec.toInt_signExtend_of_le (by decide)
  have hcond := BitVec.toInt_eq_toNat_cond (count.signExtend 64)
  have hlt := (count.signExtend 64).isLt
  have hmax : MAX_THREADS = 4 := rfl
  have hzero : count.signExtend 64 ≠ 0 ↔ (count.signExtend 64).toNat ≠ 0 := by
    rw [not_iff_not]
    exact BitVec.toNat_inj.symm
  rw [hzero, ← hint, hcond, hmax]
  split <;> omega

theorem toNat_signExtend_eq (h : 1 ≤ count.toInt ∧ count.toInt ≤ MAX_THREADS) :
    ((count.signExtend 64).toNat : Int) = count.toInt := by
  have hsmall := (toNat_signExtend_le_iff.2 h).2
  have hmax : MAX_THREADS = 4 := rfl
  rw [← BitVec.toInt_signExtend_of_le (w := 32) (v := 64) (by decide),
    BitVec.toInt_eq_toNat_cond, if_pos (by omega)]

end Arithmetic

/-! ## A packet for every worker -/

/-- A frame from a station whose address begins with `x`. -/
def frameFrom (x : UInt8) : Frame :=
  { bytes := [0, 0, 0, 0, 0, 0, x, 0, 0, 0, 0, 0, 0x08, 0x00]
    length_le := (by decide : 14 ≤ SIZEOF_PACKET) }

/-- It has been received on descriptor 7. -/
def receivedFrom (x : UInt8) : Buffer :=
  { seq := 0
    fd := 7
    stale := Packet.zeroed
    frame := some (frameFrom x) }

/-- Up to four workers, each of them has stations. -/
theorem exists_hash_mod {n i : Nat} (hn : n ≤ MAX_THREADS) (hi : i < n) :
    ∃ b : Buffer, b.hash.toNat % n = i := by
  have hall : ∀ n ≤ MAX_THREADS, ∀ i < n,
      ∃ x ∈ ([0, 0x10, 0x40, 0x50, 0xf0] : List UInt8), (receivedFrom x).hash.toNat % n = i := by
    decide +kernel
  rcases hall n hn i hi with ⟨x, _, hx⟩
  exact ⟨receivedFrom x, hx⟩

/-! ## The workers that packets go to -/

section Init

variable {pipe : Nat → Option (Fd × Fd)} {count : BitVec 32}

theorem exits_fwEngineInit (h : count.signExtend 64 = 0) : Exits (fwEngineInit pipe count) := by
  rw [fwEngineInit, h, threadPoolCreate_of_zero]
  exact ⟨_, rfl⟩

theorem fwEngineInit_of_le (hpos : count.signExtend 64 ≠ 0)
    (h : (count.signExtend 64).toNat ≤ MAX_THREADS) :
    fwEngineInit pipe count = .ok (0, some
      { workers := fun j =>
          if j < (count.signExtend 64).toNat then WorkerSlot.zeroed.init (pipe j) j else .zeroed
        num_threads := count.signExtend 64 }) := by
  rw [fwEngineInit, threadPoolCreate_of_le hpos h]
  rfl

theorem fwEngineInit_of_gt (h : MAX_THREADS < (count.signExtend 64).toNat) :
    fwEngineInit pipe count = .error .crash := by
  rw [fwEngineInit, threadPoolCreate_of_gt h]
  rfl

/-- With room for all the workers, what matters is whether they have been created. -/
theorem dispatchesLive_of_le (hpos : count.signExtend 64 ≠ 0)
    (h : (count.signExtend 64).toNat ≤ MAX_THREADS) :
    DispatchesLive (fwEngineInit pipe count) ↔
      ∀ i < (count.signExtend 64).toNat, (pipe i).isSome = true := by
  have hcreated : fwEngineInit pipe count = .ok (0, some _) := fwEngineInit_of_le hpos h
  have hnat : 0 < (count.signExtend 64).toNat := by
    refine Nat.pos_of_ne_zero ?_
    exact fun hzero => hpos (BitVec.eq_of_toNat_eq hzero)
  have hidx : ∀ hash, (poolIdx hash (count.signExtend 64)).toNat =
      hash.toNat % (count.signExtend 64).toNat :=
    fun hash => toNat_poolIdx hash hnat (le_trans h (by decide))
  constructor
  · -- the slot whose pipe failed is the slot of some packet
    intro hlive i hi
    rcases exists_hash_mod h hi with ⟨b, hb⟩
    have hslot := (hlive.live _ _ hcreated b).2
    simp only [hidx, hb, if_pos hi] at hslot
    exact WorkerSlot.live_init_iff.1 hslot
  · intro hpipes
    refine ⟨?_, ?_⟩
    · intro hcrash
      rw [hcreated] at hcrash
      cases hcrash
    intro result pool hpool b
    rw [hcreated] at hpool
    cases hpool
    have hlt : b.hash.toNat % (count.signExtend 64).toNat < (count.signExtend 64).toNat :=
      Nat.mod_lt _ hnat
    simp only [hidx, if_pos hlt]
    exact ⟨lt_of_lt_of_le hlt h, WorkerSlot.live_init_iff.2 (hpipes _ hlt)⟩

/-- Every packet finds a worker exactly if there are one to four threads and all their pipes have
been created. -/
theorem dispatchesLive_iff (haccepted : ¬ Exits (fwEngineInit pipe count)) :
    DispatchesLive (fwEngineInit pipe count) ↔
      1 ≤ count.toInt ∧ count.toInt ≤ MAX_THREADS ∧
        ∀ i : Nat, (i : Int) < count.toInt → (pipe i).isSome = true := by
  have hpos : count.signExtend 64 ≠ 0 := fun hzero => haccepted (exits_fwEngineInit hzero)
  rw [← and_assoc, ← toNat_signExtend_le_iff]
  rcases Nat.lt_or_ge MAX_THREADS (count.signExtend 64).toNat with hgt | hle
  · -- the loop leaves the array
    refine iff_of_false ?_ ?_
    · exact fun hlive => hlive.within_bounds (fwEngineInit_of_gt hgt)
    · exact fun hcond => absurd hgt (Nat.not_lt.2 hcond.1.2)
  · have heq := toNat_signExtend_eq (toNat_signExtend_le_iff.1 ⟨hpos, hle⟩)
    rw [dispatchesLive_of_le hpos hle, and_iff_right ⟨hpos, hle⟩, ← heq]
    simp only [Int.ofNat_lt]

/-- The number of threads that is set if no option is given, where no call of `pipe` fails. -/
theorem dispatchesLive_iff_default :
    DispatchesLive (fwEngineInit (fun _ => some (8, 9)) worker_threads) := by
  have haccepted : ¬ Exits (fwEngineInit (fun _ => some (8, 9)) worker_threads) := by
    rw [fwEngineInit_of_le (by decide) (by decide)]
    exact not_exits_ok _
  exact (dispatchesLive_iff haccepted).2 ⟨by decide, by decide, fun _ _ => rfl⟩

/-- Five threads leave the array; and if the third of four pipes fails, there are packets for a
worker that does not exist. -/
theorem not_dispatchesLive_five :
    (¬ Exits (fwEngineInit (fun _ => some (8, 9)) 5) ∧
      ¬ DispatchesLive (fwEngineInit (fun _ => some (8, 9)) 5)) ∧
    (¬ Exits (fwEngineInit (fun i => if i = 2 then none else some (8, 9)) 4) ∧
      ¬ DispatchesLive (fwEngineInit (fun i => if i = 2 then none else some (8, 9)) 4)) := by
  have hfive : fwEngineInit (fun _ => some (8, 9)) 5 = .error .crash :=
    fwEngineInit_of_gt (by decide)
  refine ⟨⟨?_, ?_⟩, ?_, ?_⟩
  · rw [hfive]
    exact not_exits_crash
  · exact fun hlive => hlive.within_bounds hfive
  · rw [fwEngineInit_of_le (by decide) (by decide)]
    exact not_exits_ok _
  · rw [dispatchesLive_of_le (by decide) (by decide)]
    intro hpipes
    exact absurd (hpipes 2 (by decide)) (by decide)

/-! ## Where the engine starts -/

/-- A pool that is returned has been created within its bounds. -/
theorem fits_of_fwEngineInit {result : Int} {pool : CreatedPool Buffer}
    (h : fwEngineInit pipe count = .ok (result, some pool)) :
    count.signExtend 64 ≠ 0 ∧ (count.signExtend 64).toNat ≤ MAX_THREADS := by
  constructor
  · intro hzero
    have hexits : Exits (fwEngineInit pipe count) := exits_fwEngineInit hzero
    rw [h] at hexits
    exact not_exits_ok _ hexits
  · refine Nat.not_lt.1 fun hgt => ?_
    rw [fwEngineInit_of_gt hgt] at h
    cases h

/-- A pool in which every packet finds a worker is the one that the machine of the engine starts
with: the number of threads fits, the index is that of the buffer, and the rings are empty. -/
theorem start_of_dispatchesLive {result : Int} {pool : CreatedPool Buffer}
    (hcreated : fwEngineInit pipe count = .ok (result, some pool))
    (hlive : DispatchesLive (fwEngineInit pipe count)) :
    ∃ n : ThreadCount, (n.val : Int) = count.toInt ∧
      (∀ b : Buffer, (poolIdx b.hash pool.num_threads).toNat = b.threadIdx n.val) ∧
      ∀ i < n.val, (pool.workers i).ring = some (Engine.start.pool.workers i).ring.rb ∧
        (pool.workers i).running = (Engine.start.pool.workers i).running := by
  rcases fits_of_fwEngineInit hcreated with ⟨hpos, hle⟩
  have hpipes := (dispatchesLive_of_le hpos hle).1 hlive
  have heq := toNat_signExtend_eq (toNat_signExtend_le_iff.1 ⟨hpos, hle⟩)
  have hnat : 1 ≤ (count.signExtend 64).toNat :=
    Nat.one_le_iff_ne_zero.2 fun hzero => hpos (BitVec.eq_of_toNat_eq hzero)
  rw [fwEngineInit_of_le hpos hle] at hcreated
  cases hcreated
  refine ⟨⟨(count.signExtend 64).toNat, hnat, hle⟩, heq, ?_, ?_⟩
  · exact fun b => toNat_poolIdx b.hash hnat (le_trans hle (by decide))
  · intro i hi
    rcases Option.isSome_iff_exists.1 (hpipes i hi) with ⟨pipe_fd, hpipe_fd⟩
    simp only [if_pos hi, hpipe_fd, WorkerSlot.init]
    exact ⟨rfl, rfl⟩

end Init

end DataPlane
end EVdeSwitch
