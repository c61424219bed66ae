import EVdeSwitch.Process.Faults

/-!
# Survival — the runs that do not end the process

A process that has ended takes no more steps, so a run does not end in `exit(1)` exactly if none
of its steps is one of those that `Faults` names.
-/

namespace EVdeSwitch
namespace Process

open EVdeSwitch.ControlPlane
open EVdeSwitch.Io
open EVdeSwitch.Lib
open EVdeSwitch.Utils

/-! ## All runs -/

namespace Switch

def Inv : Switch → Prop
  | .running s => s.Inv
  | .ended _ => True

/-- A step that ends the process with `exit(1)`. -/
def Fatal : Switch → SwitchAction → Prop
  | .running s, a => s.Fatal a
  | .ended _, _ => False

/-- The process no longer serves anyone. -/
def Ended : Switch → Prop
  | .running _ => False
  | .ended _ => True

variable {c : Config} {s t : Switch} {a : SwitchAction}

theorem step_of_ended (h : s.Ended) : (switch c).step s a = none := by
  cases s with
  | running s => cases h
  | ended halt => rfl

/-- One worker, and the default number of ports. -/
def oneWorker : Config :=
  { threads := ⟨1, by decide, by decide⟩
    pipeSlots := 4
    numports := 24
    numports_pos := by decide
    connect_fd := 3
    ctl_pipe := 5 }

/-- The first eight bytes of a request, with the magic number. -/
def portRequest (version : UInt8) : ReqBytes :=
  { bytes := [0xce, 0xfa, 0xed, 0xfe, version, 0, 0, 0]
    length_le := (by decide : 8 ≤ REQBUFLEN) }

/-- A client that connects on descriptor 7 and sends a request; no system call fails. -/
def connectAndRequest (version : UInt8) : List SwitchAction :=
  let env : CtlEventEnv :=
    { accept :=
        { client := some 7
          fcntlFails := false
          epollFails := false }
      request :=
        { req := some (portRequest version)
          stale := ReqBuf.zeroed
          opening :=
            { socket := some 8
              fcntlFails := false
              connectFails := false } } }
  [.ctlEvent (eventData CtlReqType.CTL_LISTEN.toNat 3) env,
    .ctlEvent (eventData CtlReqType.CTL_WD.toNat 7) env]

/-- How the process has ended, if it has. -/
def halt : Switch → Option Halt
  | .running _ => none
  | .ended halt => some halt

end Switch

end Process
end EVdeSwitch
