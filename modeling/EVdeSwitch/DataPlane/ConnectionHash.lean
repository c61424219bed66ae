import EVdeSwitch.DataPlane.EngineInit
import EVdeSwitch.DataPlane.ToeplitzWindows

/-!
# ConnectionHash — both directions of a connection

`compute_packet_hash` puts the source before the destination (`src/data_plane/toeplitz.c`).  Where
the windows that `toeplitz_hash` reads repeat after one address, the two addresses are folded onto
each other, and the hash is the same in both directions.
-/

namespace EVdeSwitch
namespace DataPlane

open EVdeSwitch.ControlPlane
open EVdeSwitch.Lib

/-! ## The hash with any key -/

/-- What `compute_packet_hash` takes over the two addresses. -/
def addressHash (key : List UInt8) (src dest : Mac) : UInt32 :=
  toeplitzHash key (src.toList ++ dest.toList)

/-- `compute_packet_hash` with another key in the place of `toeplitz_key`. -/
def packetHash (key : List UInt8) (packet : Packet) (packet_len : Nat) : UInt32 :=
  if packet_len < ETH_HEADER_LEN then
    0
  else
    addressHash key packet.src packet.dest

theorem computePacketHash_eq : computePacketHash = packetHash toeplitz_key := rfl

/-- The hash that `dispatch_packet` takes of a buffer. -/
def Buffer.hashWith (key : List UInt8) (b : Buffer) : UInt32 :=
  packetHash key b.p (b.len % 2 ^ 64).toNat

theorem Buffer.hash_eq (b : Buffer) : b.hash = b.hashWith toeplitz_key := rfl

/-! ## Windows that repeat -/

section Fold

variable {key : List UInt8}

theorem keyWindow_add_mul (key : List UInt8) (i k : Nat) :
    keyWindow key (key.length * k + i) = keyWindow key i := by
  have hbyte : ∀ c, (key.length * k + i + c) % key.length = (i + c) % key.length := by
    intro c
    rw [Nat.add_assoc, Nat.mul_add_mod]
  have hfirst : (key.length * k + i) % key.length = i % key.length := Nat.mul_add_mod ..
  simp only [keyWindow, hbyte, hfirst]

theorem bitAt_append_left {a : List UInt8} (b : List UInt8) {i : Nat} (hi : i < 8 * a.length) :
    bitAt (a ++ b) i = bitAt a i := by
  rw [bitAt, bitAt, List.getD_append _ _ _ _ (by omega)]

theorem bitAt_append_right (a b : List UInt8) (i : Nat) :
    bitAt (a ++ b) (8 * a.length + i) = bitAt b i := by
  have hdiv : (8 * a.length + i) / 8 = a.length + i / 8 := by omega
  have hmod : (8 * a.length + i) % 8 = i % 8 := by omega
  rw [bitAt, bitAt, hdiv, hmod, List.getD_append_right _ _ _ _ (by omega), Nat.add_sub_cancel_left]

theorem bitAt_zipWith_xor {a b : List UInt8} (h : a.length = b.length) (i : Nat) :
    bitAt (List.zipWith (· ^^^ ·) a b) i = (bitAt a i ^^ bitAt b i) := by
  have hbyte : (List.zipWith (· ^^^ ·) a b).getD (i / 8) 0 =
      a.getD (i / 8) 0 ^^^ b.getD (i / 8) 0 := by
    rw [List.getD_eq_getElem?_getD, List.getD_eq_getElem?_getD, List.getD_eq_getElem?_getD,
      List.getElem?_zipWith]
    rcases Nat.lt_or_ge (i / 8) a.length with hlt | hge
    · rw [List.getElem?_eq_getElem hlt, List.getElem?_eq_getElem (h ▸ hlt)]
      rfl
    · rw [List.getElem?_eq_none hge, List.getElem?_eq_none (h ▸ hge)]
      rfl
  rw [bitAt, hbyte, UInt8.toNat_xor, Nat.testBit_xor]
  rfl

/-- Two parts over which the windows are the same have the hash of their sum without carry. -/
theorem toeplitzHash_append {a b : List UInt8} (h : a.length = b.length)
    (hkey : key.length ∣ 8 * a.length) :
    toeplitzHash key (a ++ b) = toeplitzHash key (List.zipWith (· ^^^ ·) a b) := by
  rcases hkey with ⟨k, hk⟩
  have hsize : 8 * (a ++ b).length = 8 * a.length + 8 * a.length := by
    rw [List.length_append, ← h]
    omega
  have hsum : 8 * (List.zipWith (· ^^^ ·) a b).length = 8 * a.length := by
    rw [List.length_zipWith, ← h, Nat.min_self]
  have hleft : bitFold (· ^^^ ·) 0 (keyWindow key) (bitAt (a ++ b)) (8 * a.length) =
      bitFold (· ^^^ ·) 0 (keyWindow key) (bitAt a) (8 * a.length) :=
    bitFold_congr (fun _ _ _ => rfl) fun i hi => bitAt_append_left b hi
  have hright : bitFold (fun x y : UInt32 => x ^^^ y) 0 (fun i => keyWindow key (8 * a.length + i))
      (fun i => bitAt (a ++ b) (8 * a.length + i)) (8 * a.length) =
      bitFold (· ^^^ ·) 0 (keyWindow key) (bitAt b) (8 * a.length) := by
    refine bitFold_congr (fun i _ _ => ?_) fun i _ => bitAt_append_right a b i
    rw [hk, keyWindow_add_mul]
  calc
    toeplitzHash key (a ++ b)
        = bitFold (· ^^^ ·) 0 (keyWindow key) (bitAt a) (8 * a.length) ^^^
            bitFold (· ^^^ ·) 0 (keyWindow key) (bitAt b) (8 * a.length) := by
          rw [toeplitzHash_eq_bitFold, hsize, bitFold_add, hleft, hright]
    _ = bitFold (· ^^^ ·) 0 (keyWindow key) (fun i => bitAt a i ^^ bitAt b i) (8 * a.length) :=
          bitFold_xor fun _ => UInt32.xor_self
    _ = toeplitzHash key (List.zipWith (· ^^^ ·) a b) := by
          rw [toeplitzHash_eq_bitFold, hsum]
          exact bitFold_congr (fun _ _ _ => rfl) fun i _ => (bitAt_zipWith_xor h i).symm

/-- The hash depends on nothing but the sum of the addresses. -/
theorem addressHash_eq_zipWith (hkey : key.length ∣ 48) (src dest : Mac) :
    addressHash key src dest =
      toeplitzHash key (List.zipWith (· ^^^ ·) src.toList dest.toList) := by
  have hsrc : src.toList.length = 6 := Vector.length_toList
  have hdest : dest.toList.length = 6 := Vector.length_toList
  refine toeplitzHash_append (hsrc.trans hdest.symm) ?_
  rw [hsrc]
  exact hkey

theorem addressHash_comm (hkey : key.length ∣ 48) (src dest : Mac) :
    addressHash key src dest = addressHash key dest src := by
  rw [addressHash_eq_zipWith hkey, addressHash_eq_zipWith hkey,
    List.zipWith_comm_of_comm UInt8.xor_comm]

theorem addressHash_congr (hkey : key.length ∣ 48) {src dest src' dest' : Mac}
    (h : ∀ i, src.get i ^^^ dest.get i = src'.get i ^^^ dest'.get i) :
    addressHash key src dest = addressHash key src' dest' := by
  have hsum : List.zipWith (· ^^^ ·) src.toList dest.toList =
      List.zipWith (· ^^^ ·) src'.toList dest'.toList := by
    refine List.ext_getElem (by simp) fun i hi _ => ?_
    have hlt : i < MAC_SIZE := by simpa using hi
    simp only [List.getElem_zipWith, Vector.getElem_toList]
    exact h ⟨i, hlt⟩
  rw [addressHash_eq_zipWith hkey, addressHash_eq_zipWith hkey, hsum]

end Fold

/-! ## Frames between two stations -/

/-- A frame with a whole header and these addresses, the destination in front. -/
structure Frame.Carries (f : Frame) (src dest : Mac) : Prop where
  header : ETH_HEADER_LEN ≤ f.bytes.length
  dest : f.bytes.take ETH_ADDR_LEN = dest.toList
  src : (f.bytes.drop ETH_ADDR_LEN).take ETH_ADDR_LEN = src.toList

namespace Frame.Carries

variable {f : Frame} {src dest : Mac}

theorem lt_length (h : f.Carries src dest) {i : Nat} (hi : i < ETH_ADDR_LEN + ETH_ADDR_LEN) :
    i < f.bytes.length :=
  lt_of_lt_of_le hi (le_trans (by decide) h.header)

theorem dest_receive (h : f.Carries src dest) (stale : Packet) :
    (stale.receive f).dest = dest := by
  refine Vector.toList_inj.1 ?_
  rw [← h.dest]
  refine List.ext_getElem ?_ fun i hi _ => ?_
  · rw [h.dest, Vector.length_toList, Vector.length_toList]
  · have hlt : i < ETH_ADDR_LEN := by
      rw [Vector.length_toList] at hi
      exact hi
    rw [Vector.getElem_toList, List.getElem_take]
    refine (Vector.getElem_ofFn _).trans ?_
    exact Packet.byte_receive_of_lt stale f (h.lt_length (Nat.lt_add_right _ hlt))

theorem src_receive (h : f.Carries src dest) (stale : Packet) :
    (stale.receive f).src = src := by
  refine Vector.toList_inj.1 ?_
  rw [← h.src]
  refine List.ext_getElem ?_ fun i hi _ => ?_
  · rw [h.src, Vector.length_toList, Vector.length_toList]
  · have hlt : i < ETH_ADDR_LEN := by
      rw [Vector.length_toList] at hi
      exact hi
    rw [Vector.getElem_toList, List.getElem_take, List.getElem_drop]
    refine (Vector.getElem_ofFn _).trans ?_
    exact Packet.byte_receive_of_lt stale f (h.lt_length (Nat.add_lt_add_left hlt _))

end Frame.Carries

/-- The hash of a buffer that holds such a frame. -/
theorem Buffer.hashWith_of_carries {key : List UInt8} {b : Buffer} {f : Frame} {src dest : Mac}
    (hframe : b.frame = some f) (h : f.Carries src dest) :
    b.hashWith key = addressHash key src dest := by
  have hlen : (b.len % 2 ^ 64).toNat = f.bytes.length := by
    have hsize : SIZEOF_PACKET = 1518 := rfl
    have hle := f.length_le
    rw [Buffer.len, hframe]
    simp only
    omega
  have hpacket : b.p = b.stale.receive f := by rw [Buffer.p, hframe]
  rw [Buffer.hashWith, packetHash, hlen, if_neg (Nat.not_lt.2 h.header), hpacket, h.src_receive,
    h.dest_receive]

/-- With a key whose length divides 48 the hash is the same in both directions and depends on
nothing but the sum of the addresses without carry, and whatever the number of threads, the frames
of both directions go to the same worker. -/
theorem directions_same_worker {key : List UInt8} (hkey : key.length ∣ 48) :
    (∀ src dest : Mac, addressHash key src dest = addressHash key dest src) ∧
    (∀ src dest src' dest' : Mac,
      (∀ i, src.get i ^^^ dest.get i = src'.get i ^^^ dest'.get i) →
        addressHash key src dest = addressHash key src' dest') ∧
    ∀ (src dest : Mac) (b c : Buffer) (f g : Frame), b.frame = some f → c.frame = some g →
      f.Carries src dest → g.Carries dest src →
        ∀ num_threads : BitVec 64,
          poolIdx (b.hashWith key) num_threads = poolIdx (c.hashWith key) num_threads := by
  refine ⟨addressHash_comm hkey, fun _ _ _ _ => addressHash_congr hkey, ?_⟩
  intro src dest b c f g hb hc hf hg num_threads
  rw [Buffer.hashWith_of_carries hb hf, Buffer.hashWith_of_carries hc hg,
    addressHash_comm hkey src dest]

def answerHeader : List UInt8 :=
  [2, 0, 0, 0, 0, 1, 2, 0, 0, 0, 0, 9, 0x08, 0x00]

theorem length_answerHeader_le : answerHeader.length ≤ SIZEOF_PACKET := by decide

/-- What the station at the other end answers. -/
def answerFrame : Frame :=
  { bytes := answerHeader
    length_le := length_answerHeader_le }

/-- A request and its answer with the key of the source and four threads. -/
theorem directions_same_worker_station :
    addressHash toeplitz_key #v[2, 0, 0, 0, 0, 1] #v[2, 0, 0, 0, 0, 9] =
      addressHash toeplitz_key #v[2, 0, 0, 0, 0, 9] #v[2, 0, 0, 0, 0, 1] ∧
    addressHash toeplitz_key #v[2, 0, 0, 0, 0, 1] #v[2, 0, 0, 0, 0, 9] =
      addressHash toeplitz_key #v[0, 0, 0, 0, 0, 0] #v[0, 0, 0, 0, 0, 8] ∧
    poolIdx (Buffer.hash ⟨0, 7, Packet.zeroed, some stationFrame⟩) 4 =
      poolIdx (Buffer.hash ⟨1, 8, Packet.zeroed, some answerFrame⟩) 4 := by
  have hkey : toeplitz_key.length ∣ 48 := by decide
  refine ⟨(directions_same_worker hkey).1 _ _, ?_, ?_⟩
  · exact (directions_same_worker hkey).2.1 _ _ _ _ (by decide)
  · exact (directions_same_worker hkey).2.2 #v[2, 0, 0, 0, 0, 1] #v[2, 0, 0, 0, 0, 9]
      ⟨0, 7, Packet.zeroed, some stationFrame⟩ ⟨1, 8, Packet.zeroed, some answerFrame⟩
      stationFrame answerFrame rfl rfl
      { header := by decide
        dest := by decide
        src := by decide }
      { header := by decide
        dest := by decide
        src := by decide } 4

end DataPlane
end EVdeSwitch
