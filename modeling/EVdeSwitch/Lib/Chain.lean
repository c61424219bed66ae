import Mathlib.Data.List.Nodup

/-!
# Chain — lists searched from the front for a key

A bucket of a chained hash table, with the two ways in which such code uses it: find the first
element that meets a test, and rewrite that element in place.  As long as no key occurs twice,
a test that singles out a key examines one element only, and rewriting that element is invisible
to every other key.
-/

namespace EVdeSwitch
namespace Lib

universe u v

variable {ε : Type u} {κ : Type v}

/-- Rewrite the first element that meets `p`. -/
def modifyFirst (p : ε → Bool) (f : ε → ε) : List ε → List ε
  | [] => []
  | e :: rest => if p e then f e :: rest else e :: modifyFirst p f rest

section Rewriting

variable {p : ε → Bool} {f : ε → ε}

theorem modifyFirst_cons_of_pos {e : ε} {rest : List ε} (h : p e = true) :
    modifyFirst p f (e :: rest) = f e :: rest := by
  simp [modifyFirst, h]

theorem modifyFirst_cons_of_neg {e : ε} {rest : List ε} (h : p e = false) :
    modifyFirst p f (e :: rest) = e :: modifyFirst p f rest := by
  simp [modifyFirst, h]

/-- A rewriting that leaves the keys alone leaves their list alone. -/
theorem map_key_modifyFirst {key : ε → κ} (hkey : ∀ e, key (f e) = key e) (l : List ε) :
    (modifyFirst p f l).map key = l.map key := by
  induction l with
  | nil => rfl
  | cons e rest ih =>
      cases h : p e with
      | true => rw [modifyFirst_cons_of_pos h, List.map_cons, List.map_cons, hkey]
      | false => rw [modifyFirst_cons_of_neg h, List.map_cons, List.map_cons, ih]

end Rewriting

/-! ## Taking out an element -/

section Erasing

variable {p q : ε → Bool}

/-- Taking out the first element that meets one test does not touch those that meet another. -/
theorem find?_eraseP_of_disjoint (h : ∀ e, p e = true → q e = false) (l : List ε) :
    (l.eraseP p).find? q = l.find? q := by
  induction l with
  | nil => rfl
  | cons e rest ih =>
      cases hp : p e with
      | true => simp [hp, h e hp]
      | false => cases hq : q e <;> simp [hp, hq, ih]

/-- None is left exactly if there was one at most. -/
theorem find?_eraseP_self_eq_none (l : List ε) :
    (l.eraseP p).find? p = none ↔ l.countP p ≤ 1 := by
  induction l with
  | nil => simp
  | cons e rest ih =>
      cases hp : p e with
      | true => simp [hp, List.countP_eq_zero]
      | false => simpa [hp] using ih

/-- An element that occurs once is gone when it is taken out. -/
theorem not_mem_eraseP_of_find? {e : ε} {l : List ε} (hl : l.Nodup) (h : l.find? p = some e) :
    e ∉ l.eraseP p := by
  induction l with
  | nil => cases h
  | cons e' rest ih =>
      rcases List.nodup_cons.1 hl with ⟨hnew, hrest⟩
      cases hp : p e' with
      | true =>
          rw [List.find?_cons_of_pos hp] at h
          cases h
          simpa [hp] using hnew
      | false =>
          rw [List.find?_cons_of_neg (by simp [hp])] at h
          have hne : e ≠ e' := by
            rintro rfl
            simp [List.find?_some h] at hp
          simpa [hp, hne] using ih hrest h

/-- Nothing else is taken out. -/
theorem mem_eraseP_of_ne {e e' : ε} {l : List ε} (h : l.find? p = some e) (hne : e' ≠ e)
    (hmem : e' ∈ l) : e' ∈ l.eraseP p := by
  induction l with
  | nil => cases hmem
  | cons x rest ih =>
      cases hp : p x with
      | true =>
          rw [List.find?_cons_of_pos hp, Option.some.injEq] at h
          rw [List.eraseP_cons_of_pos hp]
          rcases List.mem_cons.1 hmem with hx | hrest
          · exact absurd (hx.trans h) hne
          · exact hrest
      | false =>
          have hneg : ¬ p x = true := by simp [hp]
          rw [List.find?_cons_of_neg hneg] at h
          rw [List.eraseP_cons_of_neg hneg]
          rcases List.mem_cons.1 hmem with hx | hrest
          · exact List.mem_cons.2 (Or.inl hx)
          · exact List.mem_cons_of_mem _ (ih h hrest)

end Erasing

/-! ## Searching for a key -/

variable [DecidableEq κ]

/-- The first element under a key. -/
def findKey (key : ε → κ) (k : κ) (l : List ε) : Option ε :=
  l.find? (fun e => key e = k)

section Searching

variable {key : ε → κ} {k k' : κ} {e : ε} {l : List ε}

@[simp] theorem findKey_nil : findKey key k ([] : List ε) = none := rfl

theorem findKey_cons_of_eq (h : key e = k) : findKey key k (e :: l) = some e := by
  simp [findKey, h]

theorem findKey_cons_of_ne (h : key e ≠ k) : findKey key k (e :: l) = findKey key k l := by
  simp [findKey, h]

theorem findKey_eq_none : findKey key k l = none ↔ k ∉ l.map key := by
  simp [findKey]

theorem key_of_findKey (h : findKey key k l = some e) : key e = k := by
  simpa using List.find?_some h

theorem findKey_append_of_ne (h : key e ≠ k) (l₁ l₂ : List ε) :
    findKey key k (l₁ ++ e :: l₂) = findKey key k (l₁ ++ l₂) := by
  simp [findKey, List.find?_append, h]

theorem findKey_eq_some_of_mem (hl : (l.map key).Nodup) (h : e ∈ l) :
    findKey key (key e) l = some e := by
  induction l with
  | nil => cases h
  | cons e' rest ih =>
      rw [List.map_cons, List.nodup_cons] at hl
      rcases List.mem_cons.1 h with rfl | hrest
      · exact findKey_cons_of_eq rfl
      · have hne : key e' ≠ key e := fun heq => hl.1 (heq ▸ List.mem_map_of_mem hrest)
        rw [findKey_cons_of_ne hne]
        exact ih hl.2 hrest

/-- Where keys occur once, their list and the elements under them make up the list. -/
theorem eq_of_findKey {l' : List ε} (hkeys : l.map key = l'.map key) (hl : (l.map key).Nodup)
    (h : ∀ e ∈ l, findKey key (key e) l' = some e) : l = l' := by
  refine List.ext_get ?_ ?_
  · simpa using congrArg List.length hkeys
  · intro i hi hi'
    have hkey : key (l.get ⟨i, hi⟩) = key (l'.get ⟨i, hi'⟩) := by
      simpa [hi, hi'] using congrArg (fun keys => keys[i]?) hkeys
    have hfound := h _ (List.get_mem l ⟨i, hi⟩)
    rw [hkey, findKey_eq_some_of_mem (hkeys ▸ hl) (List.get_mem l' ⟨i, hi'⟩)] at hfound
    exact (Option.some.inj hfound).symm

variable (key) in
/-- Any element can be brought to the front of those with its key, without changing what is under
the other keys or where the keys stand. -/
theorem exists_perm_findKey (h : e ∈ l) :
    ∃ l', l'.Perm l ∧ l'.map key = l.map key ∧ findKey key (key e) l' = some e ∧
      ∀ k, k ≠ key e → findKey key k l' = findKey key k l := by
  induction l with
  | nil => cases h
  | cons e' rest ih =>
      by_cases hkey : key e' = key e
      · rcases List.mem_cons.1 h with rfl | hrest
        · exact ⟨e :: rest, List.Perm.refl _, rfl, findKey_cons_of_eq rfl, fun _ _ => rfl⟩
        · -- the two elements change places
          rcases List.append_of_mem hrest with ⟨before, after, rfl⟩
          refine ⟨e :: (before ++ e' :: after), ?_, ?_, findKey_cons_of_eq rfl, ?_⟩
          · calc
              List.Perm (e :: (before ++ e' :: after)) (e :: e' :: (before ++ after)) :=
                List.perm_middle.cons e
              List.Perm _ (e' :: e :: (before ++ after)) := List.Perm.swap _ _ _
              List.Perm _ (e' :: (before ++ e :: after)) := (List.perm_middle.cons e').symm
          · simp [hkey]
          · intro k hk
            have hne : key e' ≠ k := fun heq => hk (heq ▸ hkey)
            rw [findKey_cons_of_ne hk.symm, findKey_cons_of_ne hne, findKey_append_of_ne hne,
              findKey_append_of_ne hk.symm]
      · have hrest : e ∈ rest := by
          rcases List.mem_cons.1 h with rfl | hrest
          · exact absurd rfl hkey
          · exact hrest
        rcases ih hrest with ⟨l', hperm, hmap, hfind, hother⟩
        refine ⟨e' :: l', hperm.cons e', ?_, ?_, ?_⟩
        · rw [List.map_cons, List.map_cons, hmap]
        · rw [findKey_cons_of_ne hkey, hfind]
        · intro k hk
          by_cases hk' : key e' = k
          · rw [findKey_cons_of_eq hk', findKey_cons_of_eq hk']
          · rw [findKey_cons_of_ne hk', findKey_cons_of_ne hk', hother k hk]

variable {p : ε → Bool} {f : ε → ε}

/-- Where keys occur once, a test that singles out a key examines the one element under it. -/
theorem find?_eq_filter_findKey (hp : ∀ e, p e = true → key e = k) (hl : (l.map key).Nodup) :
    l.find? p = (findKey key k l).filter p := by
  induction l with
  | nil => rfl
  | cons e rest ih =>
      rw [List.map_cons, List.nodup_cons] at hl
      by_cases hk : key e = k
      · rw [findKey_cons_of_eq hk]
        cases hpe : p e with
        | true => simp [Option.filter, hpe]
        | false =>
            -- the element under the key fails the test, and there is no other one
            have hrest : findKey key k rest = none := by
              rw [findKey_eq_none, ← hk]
              exact hl.1
            rw [List.find?_cons_of_neg (by simp [hpe]), ih hl.2, hrest]
            simp [Option.filter, hpe]
      · -- an element under another key is passed over by both
        have hpe : ¬p e = true := fun h => hk (hp e h)
        rw [findKey_cons_of_ne hk, List.find?_cons_of_neg hpe]
        exact ih hl.2

/-- What the rewriting does to the element it has found. -/
theorem findKey_modifyFirst_self (hp : ∀ e, p e = true → key e = k)
    (hkey : ∀ e, key (f e) = key e) (hl : (l.map key).Nodup) (h : l.find? p = some e) :
    findKey key k (modifyFirst p f l) = some (f e) := by
  induction l with
  | nil => cases h
  | cons e' rest ih =>
      rw [List.map_cons, List.nodup_cons] at hl
      cases hpe : p e' with
      | true =>
          rw [List.find?_cons_of_pos hpe] at h
          cases h
          rw [modifyFirst_cons_of_pos hpe]
          exact findKey_cons_of_eq ((hkey e).trans (hp e hpe))
      | false =>
          rw [List.find?_cons_of_neg (by simp [hpe])] at h
          -- an element before the found one has another key, as keys occur once
          have hne : key e' ≠ k := by
            intro heq
            apply hl.1
            rw [heq, ← hp e (List.find?_some h)]
            exact List.mem_map_of_mem (List.mem_of_find?_eq_some h)
          rw [modifyFirst_cons_of_neg hpe, findKey_cons_of_ne hne]
          exact ih hl.2 h

/-- The rewriting is invisible to every other key. -/
theorem findKey_modifyFirst_of_ne (hp : ∀ e, p e = true → key e = k)
    (hkey : ∀ e, key (f e) = key e) (hne : k' ≠ k) (l : List ε) :
    findKey key k' (modifyFirst p f l) = findKey key k' l := by
  induction l with
  | nil => rfl
  | cons e rest ih =>
      cases hpe : p e with
      | true =>
          -- the element that is rewritten is under `k`
          have he : key e ≠ k' := by
            rw [hp e hpe]
            exact hne.symm
          have hfe : key (f e) ≠ k' := by
            rw [hkey]
            exact he
          rw [modifyFirst_cons_of_pos hpe, findKey_cons_of_ne he, findKey_cons_of_ne hfe]
      | false =>
          rw [modifyFirst_cons_of_neg hpe]
          by_cases he : key e = k'
          · rw [findKey_cons_of_eq he, findKey_cons_of_eq he]
          · rw [findKey_cons_of_ne he, findKey_cons_of_ne he, ih]

end Searching

end Lib
end EVdeSwitch
