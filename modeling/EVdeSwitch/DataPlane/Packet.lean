import EVdeSwitch.ControlPlane.HashTable

/-!
# Packet — the buffer of one frame

`packet` of `include/packet.h`: 14 bytes of Ethernet header and 1504 bytes of payload.  A buffer
comes from `malloc`, so what `recv` has not written is whatever the memory held before.
-/

namespace EVdeSwitch
namespace DataPlane

open EVdeSwitch.ControlPlane

def ETH_ADDR_LEN : Nat := 6

def ETH_HEADER_LEN : Nat := 14

/-- `sizeof(packet)` -/
def SIZEOF_PACKET : Nat := ETH_HEADER_LEN + 1504

structure Packet where
  bytes : List UInt8
  length_eq : bytes.length = SIZEOF_PACKET
  deriving DecidableEq

/-- The bytes that `recv(fd, p, sizeof(packet), 0)` stores: no more than the buffer takes. -/
structure Frame where
  bytes : List UInt8
  length_le : bytes.length ≤ SIZEOF_PACKET
  deriving DecidableEq

/-- The header of an IPv4 frame from station `02:00:00:00:00:01` to `02:00:00:00:00:09`. -/
def stationFrame : Frame :=
  { bytes := [2, 0, 0, 0, 0, 9, 2, 0, 0, 0, 0, 1, 0x08, 0x00]
    length_le := by decide }

namespace Packet

/-- Memory that happens to be all zero. -/
def zeroed : Packet :=
  { bytes := List.replicate SIZEOF_PACKET 0
    length_eq := List.length_replicate }

/-- Byte `i` of the buffer. -/
def byte (p : Packet) (i : Fin SIZEOF_PACKET) : UInt8 :=
  p.bytes.get (i.cast p.length_eq.symm)

/-- `eth.dest` -/
def dest (p : Packet) : Mac :=
  Vector.ofFn fun i => p.byte ⟨i, lt_trans i.isLt (by decide)⟩

/-- `eth.src` -/
def src (p : Packet) : Mac :=
  Vector.ofFn fun i => p.byte ⟨ETH_ADDR_LEN + i, by
    have hi : i.val < 6 := i.isLt
    have hsize : SIZEOF_PACKET = 1518 := rfl
    simp only [ETH_ADDR_LEN]
    omega⟩

/-- `eth.proto` -/
def proto (p : Packet) : UInt8 × UInt8 :=
  (p.byte ⟨12, by decide⟩, p.byte ⟨13, by decide⟩)

/-- The buffer after `recv` has stored a frame at its start. -/
def receive (stale : Packet) (frame : Frame) : Packet :=
  { bytes := frame.bytes ++ stale.bytes.drop frame.bytes.length
    length_eq := by
      have hle := frame.length_le
      rw [List.length_append, List.length_drop, stale.length_eq]
      omega }

theorem byte_receive_of_lt (stale : Packet) (frame : Frame) {i : Fin SIZEOF_PACKET}
    (h : i.val < frame.bytes.length) : (stale.receive frame).byte i = frame.bytes.get ⟨i, h⟩ :=
  List.getElem_append_left h

/-- A buffer holds exactly the frame it has received if and only if the frame fills it. -/
theorem bytes_receive_eq_iff (stale : Packet) (frame : Frame) :
    (stale.receive frame).bytes = frame.bytes ↔ frame.bytes.length = SIZEOF_PACKET := by
  constructor
  · intro h
    rw [← h, (stale.receive frame).length_eq]
  · intro h
    have hnil : stale.bytes.drop frame.bytes.length = [] := by
      rw [h, ← stale.length_eq, List.drop_length]
    exact (congrArg (frame.bytes ++ ·) hnil).trans (List.append_nil _)

end Packet

end DataPlane
end EVdeSwitch
