import EVdeSwitch.Io.FdManager
import EVdeSwitch.Utils.Logging

/-!
# Port — the array of ports

`alloc_port` and `alloc_endpoint` of `src/io/port.c`.  Of a port the model keeps what is ever read
again, its flag and its endpoint.
-/

namespace EVdeSwitch
namespace Io

open EVdeSwitch.Utils

/-- `PORT_FLAG_DOWN` and `PORT_FLAG_UP` -/
inductive PortFlag
  | DOWN
  | UP
  deriving DecidableEq, Repr

structure Port where
  flag : PortFlag
  ep : Option Endpoint
  deriving DecidableEq, Repr

/-- `NUMPORTS` and the array that `port_init` allocates for them. -/
structure PortArena where
  NUMPORTS : Nat
  port : Nat → Port

namespace PortArena

/-- The array is zeroed. -/
def alloc (NUMPORTS : Nat) : PortArena :=
  { NUMPORTS := NUMPORTS
    port := fun _ =>
      { flag := .DOWN
        ep := none } }

def setPort (arena : PortArena) (i : Nat) (p : Port) : PortArena :=
  { arena with port := Function.update arena.port i p }

end PortArena

def portInit (numports : Int) : Except Halt PortArena := do
  if numports < 1 then
    printlog .ERROR "Invalid number of ports\n"
  return PortArena.alloc numports.toNat

/-- The index of the port, if it is free. -/
def allocPort (arena : PortArena) (portno : Int) : Except Halt (Option Nat × PortArena) :=
  if portno < 0 ∨ portno ≥ arena.NUMPORTS then
    (printlog .ERROR "Invalid port number\n").map fun _ => (none, arena)
  else
    let down := fun i => (arena.port i).flag = .DOWN
    -- port 0 stands for the first one that is free, if there is any
    let i := if portno = 0 then ((List.range arena.NUMPORTS).find? down).getD 0 else portno.toNat
    if (arena.port i).flag = .DOWN then
      .ok (some i, arena.setPort i { flag := .UP, ep := none })
    else
      -- The port is up already
      .ok (none, arena)

/-- The endpoint, or the null pointer if the port is in use. -/
def allocEndpoint (arena : PortArena) (portno : Int) (fd_data : Fd) :
    Except Halt (Option Endpoint × PortArena) :=
  match allocPort arena portno with
  | .error halt => .error halt
  | .ok (none, arena) =>
      (printlog .WARNING "Port already in use\n").map fun _ => (none, arena)
  | .ok (some i, arena) =>
      let ep : Endpoint :=
        { port := portno.toNat
          fd_data := fd_data }
      .ok (some ep, arena.setPort i { arena.port i with ep := some ep })

/-- The port, unless it is down or has no endpoint. -/
def getPort (arena : PortArena) (portno : Int) : Except Halt (Option Port) :=
  if portno < 0 ∨ portno ≥ arena.NUMPORTS then
    (printlog .ERROR "Invalid port number: %d\n").map fun _ => none
  else
    let p := arena.port portno.toNat
    if p.flag = .DOWN ∨ p.ep = none then .ok none else .ok (some p)

theorem getPort_eq_some {arena : PortArena} {portno : Int} {p : Port}
    (h : getPort arena portno = .ok (some p)) : p = arena.port portno.toNat ∧ p.flag = .UP ∧ 0 ≤ portno := by
  by_cases hinvalid : portno < 0 ∨ portno ≥ arena.NUMPORTS
  · simp [getPort, hinvalid, Except.map] at h
  · by_cases hdown : (arena.port portno.toNat).flag = .DOWN ∨ (arena.port portno.toNat).ep = none
    · simp [getPort, hinvalid, hdown] at h
    · simp only [getPort, hinvalid, hdown, if_false, Except.ok.injEq, Option.some.injEq] at h
      rw [← h]
      refine ⟨rfl, ?_, not_lt.1 fun hneg => hinvalid (Or.inl hneg)⟩
      cases hflag : (arena.port portno.toNat).flag with
      | DOWN => exact absurd (Or.inl hflag) hdown
      | UP => rfl

/-! ## What the two functions do with the number of a port -/

section Alloc

variable {arena : PortArena} {portno : Nat}

theorem allocPort_of_ge (h : arena.NUMPORTS ≤ portno) :
    allocPort arena portno = .error (.exit 1 "Invalid port number\n") := by
  have hge : (portno : Int) < 0 ∨ (portno : Int) ≥ arena.NUMPORTS := Or.inr (by omega)
  rw [allocPort, if_pos hge]
  rfl

/-- `printlog` does not return, so neither does `alloc_endpoint`. -/
theorem allocEndpoint_of_ge (h : arena.NUMPORTS ≤ portno) (fd_data : Fd) :
    allocEndpoint arena portno fd_data = .error (.exit 1 "Invalid port number\n") := by
  rw [allocEndpoint, allocPort_of_ge h]

/-- A number other than 0 is that of its own port. -/
theorem allocPort_of_down (hpos : 1 ≤ portno) (hlt : portno < arena.NUMPORTS)
    (hdown : (arena.port portno).flag = .DOWN) :
    allocPort arena portno =
      .ok (some portno, arena.setPort portno { flag := .UP, ep := none }) := by
  have hvalid : ¬ ((portno : Int) < 0 ∨ (portno : Int) ≥ arena.NUMPORTS) := by omega
  have hne : ¬ (portno : Int) = 0 := by omega
  simp only [allocPort, if_neg hvalid, if_neg hne, Int.toNat_natCast, if_pos hdown]

theorem allocEndpoint_of_down (hpos : 1 ≤ portno) (hlt : portno < arena.NUMPORTS)
    (hdown : (arena.port portno).flag = .DOWN) (fd_data : Fd) :
    allocEndpoint arena portno fd_data =
      .ok (some ⟨portno, fd_data⟩,
        arena.setPort portno { flag := .UP, ep := some ⟨portno, fd_data⟩ }) := by
  simp [allocEndpoint, allocPort_of_down hpos hlt hdown, PortArena.setPort]

end Alloc

end Io
end EVdeSwitch
