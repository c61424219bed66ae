import EVdeSwitch.DataPlane.Packet

/-!
# Toeplitz — the hash that picks a worker

`src/data_plane/toeplitz.c`.  The loop over the bits of the data is a fold over their indices.
-/

namespace EVdeSwitch
namespace DataPlane

open EVdeSwitch.ControlPlane

def toeplitz_key : List UInt8 :=
  [0x6d, 0x5a, 0x56, 0xfa,
   0x6d, 0x5a, 0x56, 0xfa]

/-- The four bytes of the key from byte `i` on, read cyclically. -/
def keyWindow (key : List UInt8) (i : Nat) : UInt32 :=
  let byte : Nat → UInt32 := fun j => (key.getD (j % key.length) 0).toUInt32
  (byte i <<< 24) ||| (byte (i + 1) <<< 16) ||| (byte (i + 2) <<< 8) ||| byte (i + 3)

/-- The body of the loop, for bit `i` of the data. -/
def toeplitzStep (key data : List UInt8) (result : UInt32) (i : Nat) : UInt32 :=
  if (data.getD (i / 8) 0).toNat &&& (1 <<< (7 - i % 8)) ≠ 0 then
    result ^^^ keyWindow key i
  else
    result

def toeplitzHash (key data : List UInt8) : UInt32 :=
  (List.range (data.length * 8)).foldl (toeplitzStep key data) 0

/-- The length is a `size_t`; a frame without a whole Ethernet header is hashed to 0. -/
def computePacketHash (packet : Packet) (packet_len : Nat) : UInt32 :=
  if packet_len < ETH_HEADER_LEN then
    0
  else
    toeplitzHash toeplitz_key (packet.src.toList ++ packet.dest.toList)

end DataPlane
end EVdeSwitch
