import EVdeSwitch.Io.Port

/-!
# PortManager — a new data socket becomes a port

`add_port` of `src/io/port_manager.c`.  The new endpoint is visible to the workers as soon as it
is in the list `endpoints`, long before the function is done, so the function is cut in two there.
What the system calls do is up to the environment; the addresses are left out, as nothing else
depends on them.
-/

namespace EVdeSwitch
namespace Io

open EVdeSwitch.Utils

/-- The global variables that `add_port` changes. -/
structure PortManager where
  arena : PortArena
  portc : Nat
  endpoints : List Endpoint

/-- A `write` to a stream socket; the default action of `SIGPIPE`, for a peer that is gone, is to
end the process. -/
inductive WriteOutcome
  | written
  | failed
  | sigpipe
  deriving DecidableEq, Repr

/-- What happens up to the new list of endpoints. -/
structure OpenEnv where
  socket : Option Fd
  fcntlFails : Bool
  connectFails : Bool
  deriving DecidableEq

/-- What happens after that; `unlink` may fail with `ENOENT`. -/
structure BindEnv where
  unlinkFails : Bool
  bindFails : Bool
  write : WriteOutcome
  reallocated : Bool
  deriving DecidableEq

/-- `add_port` up to the new list of endpoints; without an endpoint it returns -1. -/
def addPortOpen (m : PortManager) (env : OpenEnv) : Except Halt (Option Endpoint × PortManager) :=
  match env.socket with
  | none => (printlog .ERROR "socket() failed").map fun _ => (none, m)
  | some fd_data =>
      if env.fcntlFails then
        (printlog .WARNING "fcntl - setting O_NONBLOCK %s").map fun _ => (none, m)
      else if env.connectFails then
        (printlog .ERROR "connect() failed: %s").map fun _ => (none, m)
      else
        match allocEndpoint m.arena m.portc fd_data with
        | .error halt => .error halt
        | .ok (none, _) =>
            -- the null pointer is followed
            .error .crash
        | .ok (some ep, arena) =>
            .ok (some ep,
              { arena := arena
                portc := m.portc + 1
                endpoints := ep :: m.endpoints })

/-- The rest of `add_port`, with its result; that of `fd_table_insert` is not looked at. -/
def addPortBind (ep : Endpoint) (env : BindEnv) (fdt : FdTable) : Except Halt (Int × FdTable) :=
  if env.unlinkFails || env.bindFails then
    (printlog .ERROR "bind() failed: %s").map fun _ => (-1, fdt)
  else
    match env.write with
    -- SIGPIPE is neither caught nor ignored
    | .sigpipe => .error .crash
    | .failed => (printlog .ERROR "write() failed").map fun _ => (-1, fdt)
    | .written => .ok (ep.fd_data.toInt, (fdTableInsert fdt ep.fd_data ep env.reallocated).2)

/-! ## Port numbers are handed out one after the other -/

namespace PortManager

/-- The ports from `portc` on have never been given away. -/
structure Inv (m : PortManager) : Prop where
  portc_pos : 1 ≤ m.portc
  down : ∀ i, m.portc ≤ i → (m.arena.port i).flag = .DOWN

variable {m m' : PortManager} {env : OpenEnv}

theorem inv_alloc (NUMPORTS : Nat) (endpoints : List Endpoint) :
    Inv { arena := PortArena.alloc NUMPORTS, portc := 1, endpoints := endpoints } where
  portc_pos := le_refl 1
  down := fun _ _ => rfl

/-- The calls of `add_port` that do not return from their first half. -/
def OpenFails (m : PortManager) (env : OpenEnv) : Prop :=
  env.socket = none ∨
    (env.fcntlFails = false ∧ (env.connectFails = true ∨ m.arena.NUMPORTS ≤ m.portc))

/-- The state with one more endpoint, on the next port. -/
def opened (m : PortManager) (fd_data : Fd) : PortManager :=
  { arena := m.arena.setPort m.portc { flag := .UP, ep := some ⟨m.portc, fd_data⟩ }
    portc := m.portc + 1
    endpoints := ⟨m.portc, fd_data⟩ :: m.endpoints }

/-- The first half either ends the process, or gives up because of `fcntl`, or hands out the next
port; the null pointer never turns up. -/
theorem Inv.addPortOpen_cases (hm : m.Inv) (env : OpenEnv) :
    (m.OpenFails env ∧ Exits (addPortOpen m env)) ∨
      (¬ m.OpenFails env ∧ env.fcntlFails = true ∧ addPortOpen m env = .ok (none, m)) ∨
      (¬ m.OpenFails env ∧ env.fcntlFails = false ∧ ∃ fd_data, env.socket = some fd_data ∧
        addPortOpen m env = .ok (some ⟨m.portc, fd_data⟩, m.opened fd_data)) := by
  cases hsocket : env.socket with
  | none =>
      refine Or.inl ⟨Or.inl hsocket, ?_⟩
      simp [addPortOpen, hsocket]
  | some fd_data =>
      cases hfcntl : env.fcntlFails with
      -- without the option, the function gives up and returns -1
      | true =>
          refine Or.inr (Or.inl ⟨by simp [OpenFails, hsocket, hfcntl], rfl, ?_⟩)
          simp [addPortOpen, hsocket, hfcntl, Except.map]
      | false =>
          cases hconnect : env.connectFails with
          | true =>
              refine Or.inl ⟨Or.inr ⟨hfcntl, Or.inl hconnect⟩, ?_⟩
              simp [addPortOpen, hsocket, hfcntl, hconnect]
          | false =>
              -- the next number is that of a port, which is then free
              rcases Nat.lt_or_ge m.portc m.arena.NUMPORTS with hlt | hge
              · have halloc := allocEndpoint_of_down hm.portc_pos hlt (hm.down _ (le_refl _)) fd_data
                refine Or.inr (Or.inr ⟨?_, rfl, fd_data, rfl, ?_⟩)
                · simp [OpenFails, hsocket, hconnect, hlt]
                · simp [addPortOpen, hsocket, hfcntl, hconnect, halloc, opened]
              · refine Or.inl ⟨Or.inr ⟨hfcntl, Or.inr hge⟩, ?_⟩
                simp [addPortOpen, hsocket, hfcntl, hconnect, allocEndpoint_of_ge hge]

theorem Inv.opened (hm : m.Inv) (fd_data : Fd) : (m.opened fd_data).Inv where
  portc_pos := Nat.le_add_left _ _
  down := by
    intro i hi
    have hle : m.portc + 1 ≤ i := hi
    have hne : i ≠ m.portc := by omega
    simpa [PortManager.opened, PortArena.setPort, hne] using hm.down i (by omega)

end PortManager

/-- When the second half ends the process with `exit(1)`. -/
theorem exits_addPortBind (ep : Endpoint) (env : BindEnv) (fdt : FdTable) :
    Exits (addPortBind ep env fdt) ↔
      env.unlinkFails = true ∨ env.bindFails = true ∨ env.write = .failed := by
  rcases env with ⟨unlinkFails, bindFails, write, reallocated⟩
  cases unlinkFails <;> cases bindFails <;> cases write <;> simp [addPortBind]

theorem addPortBind_ok {ep : Endpoint} {env : BindEnv} {fdt : FdTable} {r : Int × FdTable}
    (h : addPortBind ep env fdt = .ok r) :
    r = (ep.fd_data.toInt, (fdTableInsert fdt ep.fd_data ep env.reallocated).2) := by
  rcases env with ⟨unlinkFails, bindFails, write, reallocated⟩
  cases unlinkFails <;> cases bindFails <;> cases write <;>
    simp [addPortBind, Except.map] at h
  exact h.symm

end Io
end EVdeSwitch
