import EVdeSwitch.Lib.Memory
import EVdeSwitch.Utils.Logging
import EVdeSwitch.Utils.Word64

/-!
# ControlPipe — messages from the control plane to the data plane

`send_ctl_message` writes a header of eight bytes, the type and the length of the message, and
then the message itself (`src/message/message.c`).  `handle_ctl_message` reads a header, and the
message only if it is a `MSG_PORT_ADD` (`src/data_plane/data_plane.c`).  The pipe is the list of
the bytes in it; a `read` from an empty pipe blocks.
-/

namespace EVdeSwitch
namespace Message

open EVdeSwitch.Lib
open EVdeSwitch.Utils

/-- `enum MESSAGE_TYPE` -/
inductive CtlMessageType
  | MSG_PORT_UP
  | MSG_PORT_DOWN
  | MSG_PORT_ADD
  | MSG_PORT_DEL
  deriving DecidableEq, Repr

namespace CtlMessageType

def toNat : CtlMessageType → Nat
  | .MSG_PORT_UP => 0
  | .MSG_PORT_DOWN => 1
  | .MSG_PORT_ADD => 2
  | .MSG_PORT_DEL => 3

/-- The case of the `switch` that a value selects; `none` is the default case. -/
def ofInt (type : Int) : Option CtlMessageType :=
  if type = 0 then some .MSG_PORT_UP
  else if type = 1 then some .MSG_PORT_DOWN
  else if type = 2 then some .MSG_PORT_ADD
  else if type = 3 then some .MSG_PORT_DEL
  else none

theorem ofInt_toNat (type : CtlMessageType) : ofInt type.toNat = some type := by
  cases type <;> rfl

theorem toNat_lt (type : CtlMessageType) : type.toNat < 2 ^ 31 := by
  cases type <;> decide

end CtlMessageType

/-! ## Writing -/

/-- The eight bytes that `send_ctl_message` writes first. -/
def headerBytes (type : CtlMessageType) (len : Nat) : List UInt8 :=
  wordBytes 8 (TO64 (BitVec.ofInt 64 type.toNat) (BitVec.ofNat 64 len)).toNat

/-- The pipe after `send_ctl_message`, unless one of the two calls of `write` fails. -/
def sendCtlMessage (pipe : List UInt8) (type : CtlMessageType) (data : List UInt8)
    (headerFails dataFails : Bool) : Except Halt (List UInt8) := do
  if headerFails then
    printlog .ERROR "write() failed: %s"
  if dataFails then
    printlog .ERROR "write() failed: %s"
  return pipe ++ headerBytes type data.length ++ data

theorem sendCtlMessage_ok (pipe : List UInt8) (type : CtlMessageType) (data : List UInt8) :
    sendCtlMessage pipe type data false false =
      .ok (pipe ++ headerBytes type data.length ++ data) := rfl

theorem sendCtlMessage_eq_ok {pipe pipe' : List UInt8} {type : CtlMessageType}
    {data : List UInt8} {headerFails dataFails : Bool}
    (h : sendCtlMessage pipe type data headerFails dataFails = .ok pipe') :
    headerFails = false ∧ dataFails = false ∧
      pipe' = pipe ++ (headerBytes type data.length ++ data) := by
  cases headerFails with
  | true => cases h
  | false =>
      cases dataFails with
      | true => cases h
      | false =>
          cases h
          exact ⟨rfl, rfl, List.append_assoc _ _ _⟩

theorem exits_sendCtlMessage (pipe : List UInt8) (type : CtlMessageType) (data : List UInt8)
    (headerFails dataFails : Bool) :
    Exits (sendCtlMessage pipe type data headerFails dataFails) ↔
      headerFails = true ∨ dataFails = true := by
  cases headerFails with
  | true => exact iff_of_true (exits_exit _) (Or.inl rfl)
  | false =>
      cases dataFails with
      | true => exact iff_of_true (exits_exit _) (Or.inr rfl)
      | false => exact iff_of_false (not_exits_ok _) (by simp)

/-! ## Reading -/

/-- `read(fd, buf, count)`: the bytes that are brought, and those left in the pipe. -/
def readPipe (pipe : List UInt8) (count : Nat) : Option (List UInt8 × List UInt8) :=
  if pipe = [] ∧ count ≠ 0 then none else some (pipe.take count, pipe.drop count)

/-- What the environment of a call of `handle_ctl_message` decides: what the memory of
`msg_header` held, and whether `read` and `epoll_ctl` fail. -/
structure CtlEnv where
  stale : BitVec 64
  readFails : Bool
  epollFails : Bool
  deriving DecidableEq

/-- A call of `handle_ctl_message`: the type and length it decodes, the bytes it leaves in the
pipe, and the descriptor it registers for packets, if it returns. -/
structure CtlCall where
  msg_type : Int
  len : Int
  rest : List UInt8
  result : Except Halt (Option Int)

/-- `add_fd` for the data plane; `epoll_ctl` may refuse the descriptor. -/
def addPacketFd (data_fd : Int) (epollFails : Bool) : Except Halt (Option Int) := do
  if epollFails then
    printlog .ERROR "Failed to add fd %d to epoll %s: %s"
  return some data_fd

theorem addPacketFd_eq_ok {data_fd : Int} {epollFails : Bool} {added : Option Int}
    (h : addPacketFd data_fd epollFails = .ok added) : added = some data_fd := by
  cases epollFails with
  | true => cases h
  | false =>
      cases h
      rfl

/-- The case of `MSG_PORT_ADD`, for a message of `len` bytes; a length that is negative as an
`int` is huge as the `size_t` that `read` takes. -/
def handlePortAdd (env : CtlEnv) (msg_type len : Int) (pipe : List UInt8) : Option CtlCall :=
  (readPipe pipe (len % 2 ^ 64).toNat).map fun (bytes, rest) =>
    -- data_fd starts as -1, and four bytes are all the room there is
    let data_fd := (BitVec.ofNat 32 (bytesWord (storeBytes bytes [255, 255, 255, 255]))).toInt
    { msg_type := msg_type
      len := len
      rest := rest
      result :=
        if bytes.length > 4 then .error .crash
        else if data_fd < 0 then (printlog .ERROR "read() failed: %s").map fun _ => none
        else addPacketFd data_fd env.epollFails }

/-- One call of `handle_ctl_message`; `none` where it blocks. -/
def handleCtlMessage (env : CtlEnv) (pipe : List UInt8) : Option CtlCall :=
  (readPipe pipe 8).bind fun (bytes, rest) =>
    let msg_header :=
      BitVec.ofNat 64 (bytesWord (storeBytes bytes (wordBytes 8 env.stale.toNat)))
    let msg_type := (HI msg_header).toInt
    let len := (LO msg_header).toInt
    if env.readFails then
      some
        { msg_type := msg_type
          len := len
          rest := pipe
          result := (printlog .ERROR "read() failed: %s").map fun _ => none }
    else
      match CtlMessageType.ofInt msg_type with
      | some .MSG_PORT_ADD => handlePortAdd env msg_type len rest
      -- the other types are logged, and their payload is not read
      | some _ =>
          some
            { msg_type := msg_type
              len := len
              rest := rest
              result := .ok none }
      | none =>
          some
            { msg_type := msg_type
              len := len
              rest := rest
              result := (printlog .ERROR "Unknown message type %d").map fun _ => none }

/-- Calls of `handle_ctl_message` in a row, until one blocks or ends the process. -/
def handleCalls : List CtlEnv → List UInt8 → List CtlCall
  | [], _ => []
  | env :: envs, pipe =>
      match handleCtlMessage env pipe with
      | none => []
      | some call =>
          match call.result with
          | .ok _ => call :: handleCalls envs call.rest
          | .error _ => [call]

end Message
end EVdeSwitch
