import EVdeSwitch.Io.EndpointHeap
import EVdeSwitch.Io.EventLoops

/-!
# PortRemoval — `remove_port`

`remove_port` of `src/io/port_manager.c` and `free_port` of `src/io/port.c`, on everything that
knows an endpoint.  Both follow the field `next` from the endpoint of the port on, as if it led to
the other endpoints of the same port; `add_port` links all endpoints by it.  The loops are given
fuel, of which they use one unit for each endpoint.
-/

namespace EVdeSwitch
namespace Io

open EVdeSwitch.Lib
open EVdeSwitch.Utils

/-- The structures that know the endpoints. -/
structure PortSystem where
  arena : PortArena
  heap : EndpointHeap
  fdt : FdTable
  ctl_plane_fds : List (BitVec 64)
  data_plane_fds : List (BitVec 64)

/-- What follows a call, unless the call ends the process. -/
def unlessHalt {α β : Type} (r : Except Halt α) (k : α → Option (Except Halt β)) :
    Option (Except Halt β) :=
  match r with
  | .error halt => some (.error halt)
  | .ok a => k a

/-- The loop of `remove_port`; `free_endpoint` has an empty body. -/
def detachChain (next : Endpoint → Option Endpoint) :
    Nat → List (BitVec 64) → Option Endpoint → Option (Except Halt (List (BitVec 64)))
  | _, fds, none => some (.ok fds)
  | 0, _, some _ => none
  | fuel + 1, fds, some ep =>
      unlessHalt (removeFd fds ep.fd_data.toInt) fun fds => detachChain next fuel fds (next ep)

/-- The loop of `free_port`; the link is read before the record is freed. -/
def freeChain (next : Endpoint → Option Endpoint) :
    Nat → (Endpoint → Bool) → Option Endpoint → Option (Endpoint → Bool)
  | _, live, none => some live
  | 0, _, some _ => none
  | fuel + 1, live, some ep => freeChain next fuel (Function.update live ep false) (next ep)

namespace PortSystem

def freePort (s : PortSystem) (portno fuel : Nat) : Option PortSystem :=
  (freeChain s.heap.next fuel s.heap.live (s.arena.port portno).ep).map fun live =>
    { s with
      arena := s.arena.setPort portno { flag := .DOWN, ep := none }
      heap := { s.heap with live := live } }

/-- `none` where the fuel does not last. -/
def removePort (s : PortSystem) (portno : Int) (fuel : Nat) : Option (Except Halt PortSystem) :=
  match getPort s.arena portno with
  | .error halt => some (.error halt)
  | .ok none => some ((printlog .ERROR "Invalid port number %d").map fun _ => s)
  | .ok (some p) =>
      -- the descriptors are taken out of the set of the control plane
      match detachChain s.heap.next fuel s.ctl_plane_fds p.ep with
      | none => none
      | some (.error halt) => some (.error halt)
      | some (.ok ctl_plane_fds) =>
          ({ s with ctl_plane_fds := ctl_plane_fds }.freePort portno.toNat fuel).map .ok

/-- What the removal of the port of `ep` should come to: the endpoint is taken out of all the
structures, and nothing else changes. -/
structure RemovesExactly (s : PortSystem) (ep : Endpoint) (t : PortSystem) : Prop where
  list : ∀ endpoints, Linked s.heap.next s.heap.endpoints endpoints →
    Linked t.heap.next t.heap.endpoints (endpoints.filter fun other => other ≠ ep)
  unpolled : ∀ word ∈ t.data_plane_fds, (LO word).toInt ≠ ep.fd_data.toInt
  polled : ∀ word ∈ s.data_plane_fds, (LO word).toInt ≠ ep.fd_data.toInt →
    word ∈ t.data_plane_fds
  ctl_plane_fds : t.ctl_plane_fds = s.ctl_plane_fds
  released : t.heap.live ep = false
  kept : ∀ other, other ≠ ep → t.heap.live other = s.heap.live other
  lookup : fdTableLookup t.fdt ep.fd_data.toInt = none
  ports : ∀ portno : Int, portno ≠ ep.port → getPort t.arena portno = getPort s.arena portno
  list_live : ∀ endpoints, Linked t.heap.next t.heap.endpoints endpoints →
    ∀ other ∈ endpoints, t.heap.live other = true
  slots_live : ∀ i other, (t.arena.port i).ep = some other → t.heap.live other = true
  lookup_live : ∀ fd other, fdTableLookup t.fdt fd = some other → t.heap.live other = true

/-! ## What the two loops do -/

variable {next : Endpoint → Option Endpoint} {head : Option Endpoint} {cells : List Endpoint}

/-- `free_port` frees all that the links lead to. -/
theorem freeChain_of_linked (h : Linked next head cells) (live : Endpoint → Bool) :
    ∃ live', freeChain next cells.length live head = some live' ∧
      (∀ ep ∈ cells, live' ep = false) ∧ ∀ ep, ep ∉ cells → live' ep = live ep := by
  induction cells generalizing head live with
  | nil =>
      have hhead : head = none := h
      subst hhead
      refine ⟨live, rfl, ?_, fun _ _ => rfl⟩
      intro ep hep
      cases hep
  | cons cell cells ih =>
      rcases h with ⟨rfl, hrest⟩
      rcases ih hrest (Function.update live cell false) with ⟨live', hrun, hfreed, hkept⟩
      refine ⟨live', hrun, ?_, ?_⟩
      · intro ep hep
        by_cases hmem : ep ∈ cells
        · exact hfreed ep hmem
        · have hcell : ep = cell := (List.mem_cons.1 hep).resolve_right hmem
          rw [hkept ep hmem, hcell, Function.update_self]
      · intro ep hep
        have hne : ep ≠ cell := fun h => hep (h ▸ List.mem_cons_self)
        have hmem : ep ∉ cells := fun h => hep (List.mem_cons_of_mem _ h)
        rw [hkept ep hmem, Function.update_of_ne hne]

/-- `remove_fd` ends the process at the first endpoint. -/
theorem detachChain_of_not_registered {fds : List (BitVec 64)} {ep : Endpoint}
    (h : ∀ word ∈ fds, (LO word).toInt ≠ ep.fd_data.toInt) (fuel : Nat) :
    detachChain next (fuel + 1) fds (some ep) =
      some (.error (.exit 1 "Failed to remove fd %d from epoll %s: %s")) := by
  rw [detachChain, removeFd_of_not_registered h]
  rfl

variable {s : PortSystem} {portno : Int} {p : Port} {ep : Endpoint}

/-- The endpoints behind that of the port in the list are those of the ports opened before it.
`free_port` frees them too, and leaves the list as it was. -/
theorem freePort_frees {endpoints before after : List Endpoint}
    (hlinked : Linked s.heap.next s.heap.endpoints endpoints)
    (hsplit : endpoints = before ++ ep :: after) {i : Nat} (hep : (s.arena.port i).ep = some ep) :
    ∃ t, s.freePort i (after.length + 1) = some t ∧
      (∀ other ∈ ep :: after, t.heap.live other = false) ∧
      Linked t.heap.next t.heap.endpoints endpoints := by
  subst hsplit
  have htail : Linked s.heap.next (s.arena.port i).ep (ep :: after) := by
    rw [hep]
    exact hlinked.tail
  rcases freeChain_of_linked htail s.heap.live with ⟨live, hrun, hfreed, _⟩
  rw [List.length_cons] at hrun
  refine
    ⟨{ s with
        arena := s.arena.setPort i { flag := .DOWN, ep := none }
        heap := { s.heap with live := live } }, ?_, hfreed, hlinked⟩
  rw [freePort, hrun]
  rfl

/-- A port whose descriptor the control plane does not poll is not removed. -/
theorem removePort_exits (hport : getPort s.arena portno = .ok (some p)) (hep : p.ep = some ep)
    (hfd : ∀ word ∈ s.ctl_plane_fds, (LO word).toInt ≠ ep.fd_data.toInt) (fuel : Nat) :
    s.removePort portno (fuel + 1) =
      some (.error (.exit 1 "Failed to remove fd %d from epoll %s: %s")) := by
  simp only [removePort, hport, hep, detachChain_of_not_registered hfd]

/-- The fuel is used up, or the process ends; either way there is no state left. -/
theorem removePort_ne_ok (hport : getPort s.arena portno = .ok (some p)) (hep : p.ep = some ep)
    (hfd : ∀ word ∈ s.ctl_plane_fds, (LO word).toInt ≠ ep.fd_data.toInt) (fuel : Nat)
    (t : PortSystem) : s.removePort portno fuel ≠ some (.ok t) := by
  cases fuel with
  | zero =>
      simp only [removePort, hport, hep, detachChain]
      exact Option.some_ne_none _ ∘ Eq.symm
  | succ fuel =>
      rw [removePort_exits hport hep hfd fuel]
      intro h
      cases h

end PortSystem

end Io
end EVdeSwitch
