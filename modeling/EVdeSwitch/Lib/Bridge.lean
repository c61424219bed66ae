import Mathlib.Order.BooleanAlgebra.Set

/-!
# Bridge — what a learning bridge owes a frame

A bridge knows its ports and where it has learned some stations to be.  A frame goes out on every
port but its own, or, when its destination has been learned, on that port alone.  `none` stands
for a destination that is a group of stations.
-/

namespace EVdeSwitch
namespace Lib

structure Bridge (Port Addr : Type*) where
  ports : Set Port
  place : Addr → Option Port

namespace Bridge

variable {Port Addr : Type*} {b : Bridge Port Addr} {ingress port : Port} {dest : Option Addr}

/-- Every station is where there is a port. -/
def Placed (b : Bridge Port Addr) : Prop :=
  ∀ addr port, b.place addr = some port → port ∈ b.ports

/-- The ports on which a frame goes out. -/
def egress (b : Bridge Port Addr) (ingress : Port) (dest : Option Addr) : Set Port :=
  match dest.bind b.place with
  | some port => {port} \ {ingress}
  | none => b.ports \ {ingress}

/-! ## The two kinds of frames -/

theorem egress_of_none (h : dest.bind b.place = none) :
    b.egress ingress dest = b.ports \ {ingress} := by
  simp only [egress, h]

theorem egress_of_some (h : dest.bind b.place = some port) :
    b.egress ingress dest = {port} \ {ingress} := by
  simp only [egress, h]

/-- A frame for the port it comes from goes nowhere. -/
theorem egress_of_ingress (h : dest.bind b.place = some ingress) :
    b.egress ingress dest = ∅ := by
  rw [egress_of_some h]
  exact Set.sdiff_self

theorem egress_of_ne (h : dest.bind b.place = some port) (hne : port ≠ ingress) :
    b.egress ingress dest = {port} := by
  rw [egress_of_some h]
  exact Set.sdiff_singleton_eq_self fun hmem => hne (Set.mem_singleton_iff.1 hmem).symm

/-! ## No reflection, and no black hole -/

theorem ingress_notMem_egress : ingress ∉ b.egress ingress dest := by
  cases hplace : dest.bind b.place with
  | none =>
      rw [egress_of_none hplace]
      exact fun hmem => hmem.2 rfl
  | some port =>
      rw [egress_of_some hplace]
      exact fun hmem => hmem.2 rfl

theorem Placed.egress_subset (hb : b.Placed) : b.egress ingress dest ⊆ b.ports := by
  cases hplace : dest.bind b.place with
  | none =>
      rw [egress_of_none hplace]
      exact Set.sdiff_subset
  | some port =>
      rw [egress_of_some hplace]
      rintro other ⟨hother, _⟩
      rcases Option.bind_eq_some_iff.1 hplace with ⟨addr, _, haddr⟩
      rw [Set.mem_singleton_iff.1 hother]
      exact hb addr port haddr

/-- A frame that is not for the port it comes from goes somewhere, if there is another port. -/
theorem egress_nonempty (hother : ∃ port ∈ b.ports, port ≠ ingress)
    (hplace : dest.bind b.place ≠ some ingress) : (b.egress ingress dest).Nonempty := by
  cases h : dest.bind b.place with
  | none =>
      rw [egress_of_none h]
      rcases hother with ⟨port, hport, hne⟩
      exact ⟨port, hport, hne⟩
  | some port =>
      have hne : port ≠ ingress := by
        rintro rfl
        exact hplace h
      rw [egress_of_ne h hne]
      exact Set.singleton_nonempty port

end Bridge

end Lib
end EVdeSwitch
