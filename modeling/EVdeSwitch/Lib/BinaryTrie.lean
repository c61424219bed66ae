import Mathlib.Data.List.Basic

/-!
# BinaryTrie — a tree addressed by bits

Every node of the tree holds a payload, and its address is the list of bits that leads to it from
the root.  `put` makes a new leaf at an address: on the way there it fills in what is missing, and
what was below the address is lost.  A search along a path is for the node that meets a test and is
farthest from the root.
-/

namespace EVdeSwitch
namespace Lib

universe u v

inductive Trie (α : Type u)
  | null
  | node (payload : α) (zero one : Trie α)

namespace Trie

variable {α : Type u}

/-- The node at an address. -/
def nodeAt : List Bool → Trie α → Option α
  | _, .null => none
  | [], .node x _ _ => some x
  | bit :: bits, .node _ zero one => nodeAt bits (bif bit then one else zero)

/-- The nodes on the way to an address, from the root on, without the one at the address. -/
def above : List Bool → Trie α → List α
  | [], _ => []
  | _ :: _, .null => []
  | bit :: bits, .node x zero one => x :: above bits (bif bit then one else zero)

/-- The tree in which one child has been replaced. -/
def withChild (x : α) (zero one : Trie α) (bit : Bool) (child : Trie α) : Trie α :=
  bif bit then .node x zero child else .node x child one

def put (fill x : α) : List Bool → Trie α → Trie α
  | [], _ => .node x .null .null
  | bit :: bits, .null => withChild fill .null .null bit (put fill x bits .null)
  | bit :: bits, .node y zero one =>
      withChild y zero one bit (put fill x bits (bif bit then one else zero))

/-- The same tree with other payloads. -/
def map {β : Type v} (f : α → β) : Trie α → Trie β
  | .null => .null
  | .node x zero one => .node (f x) (map f zero) (map f one)

/-! ## Other payloads -/

theorem map_withChild {β : Type v} (f : α → β) (x : α) (zero one : Trie α) (bit : Bool)
    (child : Trie α) :
    (withChild x zero one bit child).map f =
      withChild (f x) (zero.map f) (one.map f) bit (child.map f) := by
  cases bit <;> rfl

theorem map_child {β : Type v} (f : α → β) (zero one : Trie α) (bit : Bool) :
    (bif bit then one else zero).map f = bif bit then one.map f else zero.map f := by
  cases bit <;> rfl

theorem nodeAt_nil_map {β : Type v} (f : α → β) (t : Trie α) :
    (t.map f).nodeAt [] = (t.nodeAt []).map f := by
  cases t <;> rfl

/-! ## Addresses -/

@[simp] theorem nodeAt_null (bits : List Bool) : nodeAt bits (.null : Trie α) = none := by
  cases bits <;> rfl

@[simp] theorem nodeAt_withChild_nil (x : α) (zero one : Trie α) (bit : Bool) (child : Trie α) :
    nodeAt [] (withChild x zero one bit child) = some x := by
  cases bit <;> rfl

theorem nodeAt_withChild_cons (x : α) (zero one : Trie α) (bit : Bool) (child : Trie α)
    (bit' : Bool) (bits : List Bool) :
    nodeAt (bit' :: bits) (withChild x zero one bit child) =
      if bit' = bit then nodeAt bits child
      else nodeAt bits (bif bit' then one else zero) := by
  cases bit <;> cases bit' <;> rfl

/-- The nodes on the way are those at the proper prefixes. -/
theorem mem_above {x : α} {bits : List Bool} {t : Trie α} :
    x ∈ above bits t ↔ ∃ address, address <+: bits ∧ address ≠ bits ∧ nodeAt address t = some x := by
  induction bits generalizing t with
  | nil =>
      simp only [above, List.not_mem_nil, false_iff]
      rintro ⟨address, hextends, hne, _⟩
      exact hne (List.prefix_nil.1 hextends)
  | cons bit bits ih =>
      cases t with
      | null => simp [above]
      | node y zero one =>
          simp only [above, List.mem_cons, ih]
          constructor
          · rintro (rfl | ⟨address, hextends, hne, hnode⟩)
            · exact ⟨[], List.nil_prefix, by simp, rfl⟩
            · refine ⟨bit :: address, ?_, by simpa using hne, hnode⟩
              simpa using hextends
          · rintro ⟨address, hextends, hne, hnode⟩
            cases address with
            | nil =>
                -- the root
                simp only [nodeAt, Option.some.injEq] at hnode
                exact Or.inl hnode.symm
            | cons bit' address =>
                rcases List.cons_prefix_cons.1 hextends with ⟨rfl, htail⟩
                exact Or.inr ⟨address, htail, by simpa using hne, hnode⟩

/-! ## A new leaf -/

variable {fill x : α}

theorem nodeAt_put_self (bits : List Bool) (t : Trie α) :
    nodeAt bits (put fill x bits t) = some x := by
  induction bits generalizing t with
  | nil => rfl
  | cons bit bits ih => cases t <;> simp [put, nodeAt_withChild_cons, ih]

/-- Nothing is left below the new leaf. -/
theorem nodeAt_put_below {bits address : List Bool} (hextends : bits <+: address)
    (hne : address ≠ bits) (t : Trie α) : nodeAt address (put fill x bits t) = none := by
  induction bits generalizing address t with
  | nil =>
      cases address with
      | nil => exact absurd rfl hne
      | cons bit address => cases bit <;> simp [put, nodeAt]
  | cons bit bits ih =>
      cases address with
      | nil => simp at hextends
      | cons bit' address =>
          rcases List.cons_prefix_cons.1 hextends with ⟨rfl, htail⟩
          have hne' : address ≠ bits := by simpa using hne
          cases t <;> simp [put, nodeAt_withChild_cons, ih htail hne']

/-- Elsewhere the nodes stay, and those that were missing on the way are filled in. -/
theorem nodeAt_put_of_apart {bits address : List Bool} (h : ¬ bits <+: address)
    (t : Trie α) :
    nodeAt address (put fill x bits t) =
      (nodeAt address t).or (if address <+: bits then some fill else none) := by
  induction bits generalizing address t with
  | nil => exact absurd List.nil_prefix h
  | cons bit bits ih =>
      cases address with
      | nil => cases t <;> simp [put, nodeAt]
      | cons bit' address =>
          by_cases hbit : bit' = bit
          · subst hbit
            have htail : ¬ bits <+: address := by simpa using h
            cases t <;> simp [put, nodeAt_withChild_cons, nodeAt, ih htail]
          · -- the other child is left alone
            cases t <;> simp [put, nodeAt_withChild_cons, nodeAt, hbit]

/-- Every node of the new tree is the new leaf, or was there before, or is filled in. -/
theorem nodeAt_put_eq_some {bits address : List Bool} {t : Trie α} {y : α}
    (h : nodeAt address (put fill x bits t) = some y) :
    (address = bits ∧ y = x) ∨
      (¬ bits <+: address ∧ (nodeAt address t = some y ∨ (nodeAt address t = none ∧ y = fill))) := by
  by_cases hextends : bits <+: address
  · by_cases hne : address = bits
    · rw [hne, nodeAt_put_self, Option.some.injEq] at h
      exact Or.inl ⟨hne, h.symm⟩
    · rw [nodeAt_put_below hextends hne] at h
      cases h
  · rw [nodeAt_put_of_apart hextends] at h
    refine Or.inr ⟨hextends, ?_⟩
    cases hold : nodeAt address t with
    | some z => simpa [hold] using h
    | none =>
        right
        by_cases hway : address <+: bits
        · simpa [hold, hway, eq_comm] using h
        · simp [hold, hway] at h

/-! ## Nodes that are filled in -/

/-- The second tree has the nodes of the first, and others that have been filled in. -/
def Extends (fill : α) (t t' : Trie α) : Prop :=
  ∀ address, nodeAt address t' = nodeAt address t ∨
    (nodeAt address t = none ∧ nodeAt address t' = some fill)

theorem Extends.refl (fill : α) (t : Trie α) : Extends fill t t :=
  fun _ => Or.inl rfl

theorem Extends.withChild {y : α} {zero one child : Trie α} (bit : Bool)
    (h : Extends fill (bif bit then one else zero) child) :
    Extends fill (node y zero one) (withChild y zero one bit child) := by
  intro address
  cases address with
  | nil => exact Or.inl (nodeAt_withChild_nil ..)
  | cons bit' address =>
      rw [nodeAt_withChild_cons]
      by_cases hbit : bit' = bit
      · rw [if_pos hbit, hbit]
        exact h address
      · rw [if_neg hbit]
        exact Or.inl rfl

theorem Extends.fill_withChild {child : Trie α} (bit : Bool) (h : Extends fill null child) :
    Extends fill null (Trie.withChild fill null null bit child) := by
  intro address
  cases address with
  | nil => exact Or.inr ⟨rfl, nodeAt_withChild_nil ..⟩
  | cons bit' address =>
      rw [nodeAt_withChild_cons]
      by_cases hbit : bit' = bit
      · rw [if_pos hbit]
        simpa using h address
      · rw [if_neg hbit]
        exact Or.inl (by cases bit' <;> simp)

/-! ## The deepest node -/

section Deepest

variable (p : α → Prop)

/-- What is farthest down the path of those that meet the test, or none if none does. -/
def IsDeepest (bits : List Bool) (t : Trie α) : Option α → Prop
  | some x => ∃ address, address <+: bits ∧ nodeAt address t = some x ∧ p x ∧
      ∀ address', address <+: address' → address' <+: bits → address' ≠ address →
        ∀ y ∈ nodeAt address' t, ¬ p y
  | none => ∀ address, address <+: bits → ∀ y ∈ nodeAt address t, ¬ p y

/-- There is only one. -/
theorem IsDeepest.unique {bits : List Bool} {t : Trie α} {found found' : Option α}
    (h : IsDeepest p bits t found) (h' : IsDeepest p bits t found') : found = found' := by
  cases found with
  | none =>
      cases found' with
      | none => rfl
      | some y =>
          rcases h' with ⟨address, hextends, hnode, hy, _⟩
          exact absurd hy (h address hextends y hnode)
  | some x =>
      rcases h with ⟨address, hextends, hnode, hx, hbelow⟩
      cases found' with
      | none => exact absurd hx (h' address hextends x hnode)
      | some y =>
          rcases h' with ⟨address', hextends', hnode', hy, hbelow'⟩
          -- of two addresses on the path one is not above the other
          rcases List.prefix_or_prefix_of_prefix hextends hextends' with hle | hle
          · by_cases hsame : address' = address
            · rw [hsame, hnode] at hnode'
              exact hnode'
            · exact absurd hy (hbelow address' hle hextends' hsame y hnode')
          · by_cases hsame : address = address'
            · rw [← hsame, hnode] at hnode'
              exact hnode'
            · exact absurd hx (hbelow' address hle hextends hsame x hnode)

variable [DecidablePred p]

/-- The last one that meets the test. -/
def lastWith (nodes : List α) : Option α :=
  nodes.reverse.find? fun x => p x

theorem lastWith_cons (x : α) (nodes : List α) :
    lastWith p (x :: nodes) = (lastWith p nodes).or (if p x then some x else none) := by
  by_cases h : p x <;> simp [lastWith, h]

theorem lastWith_append_singleton (nodes : List α) (x : α) :
    lastWith p (nodes ++ [x]) = if p x then some x else lastWith p nodes := by
  by_cases h : p x <;> simp [lastWith, h]

theorem lastWith_eq_none {nodes : List α} : lastWith p nodes = none ↔ ∀ x ∈ nodes, ¬ p x := by
  simp [lastWith]

/-- The last of the nodes on the path. -/
theorem isDeepest_lastWith (bits : List Bool) (t : Trie α) :
    IsDeepest p bits t (lastWith p (above bits t ++ (nodeAt bits t).toList)) := by
  induction bits generalizing t with
  | nil =>
      cases t with
      | null => simp [IsDeepest, above, lastWith]
      | node x zero one =>
          by_cases hx : p x
          · have hself : lastWith p (above [] (node x zero one) ++
                (nodeAt [] (node x zero one)).toList) = some x := by
              simp [above, nodeAt, lastWith, hx]
            rw [hself]
            refine ⟨[], List.prefix_rfl, rfl, hx, ?_⟩
            intro address' _ hextends hne
            exact absurd (List.prefix_nil.1 hextends) hne
          · simp [IsDeepest, above, nodeAt, lastWith, hx]
  | cons bit bits ih =>
      cases t with
      | null => simp [IsDeepest, above, lastWith]
      | node x zero one =>
          have hchild := ih (bif bit then one else zero)
          have hpath : above (bit :: bits) (node x zero one) ++
              (nodeAt (bit :: bits) (node x zero one)).toList =
                x :: (above bits (bif bit then one else zero) ++
                  (nodeAt bits (bif bit then one else zero)).toList) := rfl
          have hbelow : ∀ address, address <+: bit :: bits → address ≠ [] →
              ∃ address', address' <+: bits ∧ address = bit :: address' := by
            intro address hextends hne
            cases address with
            | nil => exact absurd rfl hne
            | cons bit' address =>
                rcases List.cons_prefix_cons.1 hextends with ⟨rfl, htail⟩
                exact ⟨address, htail, rfl⟩
          rw [hpath, lastWith_cons]
          cases hfound : lastWith p (above bits (bif bit then one else zero) ++
              (nodeAt bits (bif bit then one else zero)).toList) with
          | some y =>
              -- below the root
              rw [hfound] at hchild
              rcases hchild with ⟨address, hextends, hnode, hy, hlast⟩
              refine ⟨bit :: address, List.cons_prefix_cons.2 ⟨rfl, hextends⟩, hnode, hy, ?_⟩
              intro address' hdeeper hextends' hne
              have hnil : address' ≠ [] := by
                rintro rfl
                cases List.prefix_nil.1 hdeeper
              rcases hbelow address' hextends' hnil with ⟨rest, hrest, rfl⟩
              refine hlast rest (List.cons_prefix_cons.1 hdeeper).2 hrest ?_
              rintro rfl
              exact hne rfl
          | none =>
              rw [hfound] at hchild
              by_cases hx : p x
              · rw [if_pos hx, Option.none_or]
                refine ⟨[], List.nil_prefix, rfl, hx, ?_⟩
                intro address' _ hextends' hne
                rcases hbelow address' hextends' hne with ⟨rest, hrest, rfl⟩
                exact hchild rest hrest
              · rw [if_neg hx, Option.none_or]
                intro address hextends y hy
                by_cases hnil : address = []
                · subst hnil
                  simp only [nodeAt, Option.mem_def, Option.some.injEq] at hy
                  rw [← hy]
                  exact hx
                · rcases hbelow address hextends hnil with ⟨rest, hrest, rfl⟩
                  exact hchild rest hrest y hy

theorem isDeepest_iff {bits : List Bool} {t : Trie α} {found : Option α} :
    IsDeepest p bits t found ↔ found = lastWith p (above bits t ++ (nodeAt bits t).toList) := by
  constructor
  · intro h
    exact h.unique p (isDeepest_lastWith p bits t)
  · rintro rfl
    exact isDeepest_lastWith p bits t

end Deepest

end Trie

end Lib
end EVdeSwitch
