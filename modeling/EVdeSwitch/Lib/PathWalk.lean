import Mathlib.Data.List.Infix

/-!
# PathWalk — what a path leads to in a tree with symbolic links

A path is a list of steps, and a tree tells what there is under a list of names.  `Walks` is the
resolution of a path as a relation: it goes from directory to directory and takes every symbolic
link apart.  Where it arrives, no name is a link any more, so the names lead to themselves.
-/

namespace EVdeSwitch
namespace Lib

universe u

inductive PathStep (ν : Type u)
  | stay
  | up
  | enter (name : ν)
  deriving DecidableEq

/-- A path; one that ends in a separator has to lead to a directory. -/
structure PathText (ν : Type u) where
  absolute : Bool
  steps : List (PathStep ν)
  slash : Bool

/-- What there is under a list of names. -/
inductive PathNode (ν : Type u)
  | directory (searchable : Bool)
  | leaf
  | link (target : PathText ν)

section Walks

variable {ν : Type u} {tree : List ν → Option (PathNode ν)}

/-- From the directory `dir` the steps lead to `names`, over `links` symbolic links. -/
inductive Walks (tree : List ν → Option (PathNode ν)) :
    Nat → List ν → List (PathStep ν) → Bool → List ν → Prop
  | done (dir : List ν) (slash : Bool) : Walks tree 0 dir [] slash dir
  | stay {links : Nat} {dir names : List ν} {steps : List (PathStep ν)} {slash : Bool} :
      Walks tree links dir steps slash names → Walks tree links dir (.stay :: steps) slash names
  | up {links : Nat} {dir names : List ν} {steps : List (PathStep ν)} {slash : Bool} :
      Walks tree links dir.dropLast steps slash names →
        Walks tree links dir (.up :: steps) slash names
  | enter {links : Nat} {dir names : List ν} {steps : List (PathStep ν)} {slash : Bool} {name : ν}
      {searchable : Bool} :
      tree (dir ++ [name]) = some (.directory searchable) →
        (steps ≠ [] ∨ slash = true → searchable = true) →
        Walks tree links (dir ++ [name]) steps slash names →
          Walks tree links dir (.enter name :: steps) slash names
  | leaf {dir : List ν} {name : ν} :
      tree (dir ++ [name]) = some .leaf →
        Walks tree 0 dir [.enter name] false (dir ++ [name])
  | follow {links : Nat} {dir names : List ν} {steps : List (PathStep ν)} {slash : Bool} {name : ν}
      {target : PathText ν} :
      tree (dir ++ [name]) = some (.link target) →
        Walks tree links (if target.absolute then [] else dir) (target.steps ++ steps)
          (if steps = [] ∧ slash = false then target.slash else slash) names →
          Walks tree (links + 1) dir (.enter name :: steps) slash names

/-! ## What the next step decides -/

section NextStep

variable {links : Nat} {dir names : List ν} {steps : List (PathStep ν)} {slash : Bool} {name : ν}

theorem walks_done : Walks tree links dir [] slash names ↔ links = 0 ∧ names = dir := by
  constructor
  · rintro ⟨⟩
    exact ⟨rfl, rfl⟩
  · rintro ⟨rfl, rfl⟩
    exact Walks.done _ slash

theorem walks_stay :
    Walks tree links dir (.stay :: steps) slash names ↔ Walks tree links dir steps slash names := by
  constructor
  · rintro ⟨⟩
    assumption
  · exact Walks.stay

theorem walks_up :
    Walks tree links dir (.up :: steps) slash names ↔
      Walks tree links dir.dropLast steps slash names := by
  constructor
  · rintro ⟨⟩
    assumption
  · exact Walks.up

theorem walks_directory {searchable : Bool}
    (hnode : tree (dir ++ [name]) = some (.directory searchable)) :
    Walks tree links dir (.enter name :: steps) slash names ↔
      (steps ≠ [] ∨ slash = true → searchable = true) ∧
        Walks tree links (dir ++ [name]) steps slash names := by
  constructor
  · intro h
    cases h with
    | enter hnode' hsearch hrest =>
        rw [hnode] at hnode'
        cases hnode'
        exact ⟨hsearch, hrest⟩
    | leaf hnode' =>
        rw [hnode] at hnode'
        cases hnode'
    | follow hnode' _ =>
        rw [hnode] at hnode'
        cases hnode'
  · rintro ⟨hsearch, hrest⟩
    exact Walks.enter hnode hsearch hrest

theorem walks_leaf (hnode : tree (dir ++ [name]) = some .leaf) :
    Walks tree links dir (.enter name :: steps) slash names ↔
      links = 0 ∧ steps = [] ∧ slash = false ∧ names = dir ++ [name] := by
  constructor
  · intro h
    cases h with
    | enter hnode' _ _ =>
        rw [hnode] at hnode'
        cases hnode'
    | leaf _ => exact ⟨rfl, rfl, rfl, rfl⟩
    | follow hnode' _ =>
        rw [hnode] at hnode'
        cases hnode'
  · rintro ⟨rfl, rfl, rfl, rfl⟩
    exact Walks.leaf hnode

theorem walks_link {target : PathText ν} (hnode : tree (dir ++ [name]) = some (.link target)) :
    Walks tree links dir (.enter name :: steps) slash names ↔
      ∃ more, links = more + 1 ∧
        Walks tree more (if target.absolute then [] else dir) (target.steps ++ steps)
          (if steps = [] ∧ slash = false then target.slash else slash) names := by
  constructor
  · intro h
    cases h with
    | enter hnode' _ _ =>
        rw [hnode] at hnode'
        cases hnode'
    | leaf hnode' =>
        rw [hnode] at hnode'
        cases hnode'
    | follow hnode' hrest =>
        rw [hnode] at hnode'
        cases hnode'
        exact ⟨_, rfl, hrest⟩
  · rintro ⟨more, rfl, hrest⟩
    exact Walks.follow hnode hrest

/-- A name leads somewhere only if there is something under it. -/
theorem Walks.exists_node (h : Walks tree links dir (.enter name :: steps) slash names) :
    ∃ node, tree (dir ++ [name]) = some node := by
  cases h with
  | enter hnode _ _ => exact ⟨_, hnode⟩
  | leaf hnode => exact ⟨_, hnode⟩
  | follow hnode _ => exact ⟨_, hnode⟩

end NextStep

/-- A path leads to one place. -/
theorem Walks.unique {links links' : Nat} {dir names names' : List ν} {steps : List (PathStep ν)}
    {slash : Bool} (h : Walks tree links dir steps slash names)
    (h' : Walks tree links' dir steps slash names') : links = links' ∧ names = names' := by
  induction h generalizing links' with
  | done dir slash =>
      rcases walks_done.1 h' with ⟨hlinks, hnames⟩
      exact ⟨hlinks.symm, hnames.symm⟩
  | stay _ ih => exact ih (walks_stay.1 h')
  | up _ ih => exact ih (walks_up.1 h')
  | enter hnode _ _ ih => exact ih ((walks_directory hnode).1 h').2
  | leaf hnode =>
      rcases (walks_leaf hnode).1 h' with ⟨hlinks, _, _, hnames⟩
      exact ⟨hlinks.symm, hnames.symm⟩
  | follow hnode _ ih =>
      rcases (walks_link hnode).1 h' with ⟨more, hlinks, hrest⟩
      rcases ih hrest with ⟨hmore, hnames⟩
      exact ⟨by rw [hlinks, hmore], hnames⟩

/-- Where a path leads to, the names are those of its steps and of the links. -/
theorem Walks.forall_names {P : ν → Prop} {links : Nat} {dir names : List ν}
    {steps : List (PathStep ν)} {slash : Bool}
    (htree : ∀ names target, tree names = some (.link target) →
      ∀ name, .enter name ∈ target.steps → P name)
    (h : Walks tree links dir steps slash names) (hdir : ∀ name ∈ dir, P name)
    (hsteps : ∀ name, .enter name ∈ steps → P name) : ∀ name ∈ names, P name := by
  induction h with
  | done dir slash => exact hdir
  | stay _ ih => exact ih hdir fun name hname => hsteps name (List.mem_cons_of_mem _ hname)
  | up _ ih =>
      exact ih (fun name hname => hdir name (List.dropLast_subset _ hname))
        fun name hname => hsteps name (List.mem_cons_of_mem _ hname)
  | enter _ _ _ ih =>
      refine ih ?_ fun name hname => hsteps name (List.mem_cons_of_mem _ hname)
      intro other hother
      rcases List.mem_append.1 hother with hold | hnew
      · exact hdir other hold
      · rw [List.mem_singleton.1 hnew]
        exact hsteps _ List.mem_cons_self
  | leaf _ =>
      intro other hother
      rcases List.mem_append.1 hother with hold | hnew
      · exact hdir other hold
      · rw [List.mem_singleton.1 hnew]
        exact hsteps _ List.mem_cons_self
  | @follow links dir names steps slash name target hnode _ ih =>
      refine ih ?_ ?_
      · intro other hother
        split at hother
        · cases hother
        · exact hdir other hother
      · intro other hother
        rcases List.mem_append.1 hother with htarget | hrest
        · exact htree _ target hnode other htarget
        · exact hsteps other (List.mem_cons_of_mem _ hrest)

/-! ## Where a path leads to -/

/-- Every name leads into a directory that may be searched. -/
def OpenPath (tree : List ν → Option (PathNode ν)) (names : List ν) : Prop :=
  ∀ before name, before ++ [name] <+: names → tree (before ++ [name]) = some (.directory true)

/-- No name is a link, and all but the last lead into directories that may be searched. -/
def Settled (tree : List ν → Option (PathNode ν)) (names : List ν) : Prop :=
  OpenPath tree names.dropLast ∧
    ∀ before name, names = before ++ [name] →
      tree names = some .leaf ∨ ∃ searchable, tree names = some (.directory searchable)

theorem openPath_nil : OpenPath tree [] := by
  intro before name h
  simp at h

theorem OpenPath.dropLast {names : List ν} (h : OpenPath tree names) :
    OpenPath tree names.dropLast :=
  fun before name hbefore => h before name (hbefore.trans (List.dropLast_prefix names))

theorem OpenPath.settled {names : List ν} (h : OpenPath tree names) : Settled tree names := by
  refine ⟨h.dropLast, ?_⟩
  rintro before name rfl
  exact Or.inr ⟨true, h before name (List.prefix_refl _)⟩

theorem OpenPath.append {dir : List ν} {name : ν} (h : OpenPath tree dir)
    (hnode : tree (dir ++ [name]) = some (.directory true)) : OpenPath tree (dir ++ [name]) := by
  intro before other hbefore
  rcases List.prefix_concat_iff.1 hbefore with heq | hold
  · rw [heq]
    exact hnode
  · exact h before other hold

/-- A path leads from an open directory to a settled place, and to an open one if more is to come. -/
theorem Walks.settled {links : Nat} {dir names : List ν} {steps : List (PathStep ν)} {slash : Bool}
    (h : Walks tree links dir steps slash names) (hsettled : Settled tree dir)
    (hopen : steps ≠ [] → OpenPath tree dir) : Settled tree names := by
  induction h with
  | done dir slash => exact hsettled
  | stay _ ih =>
      have hdir := hopen (List.cons_ne_nil _ _)
      exact ih hsettled fun _ => hdir
  | up _ ih =>
      have hdir := (hopen (List.cons_ne_nil _ _)).dropLast
      exact ih hdir.settled fun _ => hdir
  | @enter links dir names steps slash name searchable hnode hsearch _ ih =>
      have hdir := hopen (List.cons_ne_nil _ _)
      refine ih ⟨?_, ?_⟩ ?_
      · rw [List.dropLast_concat]
        exact hdir
      · intro _ _ _
        exact Or.inr ⟨searchable, hnode⟩
      · intro hsteps
        rw [hsearch (Or.inl hsteps)] at hnode
        exact hdir.append hnode
  | leaf hnode =>
      have hdir := hopen (List.cons_ne_nil _ _)
      refine ⟨?_, fun _ _ _ => Or.inl hnode⟩
      rw [List.dropLast_concat]
      exact hdir
  | @follow links dir names steps slash name target hnode _ ih =>
      have hdir := hopen (List.cons_ne_nil _ _)
      cases habsolute : target.absolute with
      | true =>
          simp only [habsolute, if_true] at ih
          exact ih openPath_nil.settled fun _ => openPath_nil
      | false =>
          simp only [habsolute, Bool.false_eq_true, if_false] at ih
          exact ih hdir.settled fun _ => hdir

/-- Settled names lead to themselves, over no link. -/
theorem Settled.walks_append (before : List ν) {names : List ν} (h : Settled tree (before ++ names)) :
    Walks tree 0 before (names.map .enter) false (before ++ names) := by
  induction names generalizing before with
  | nil =>
      rw [List.append_nil]
      exact Walks.done before false
  | cons name names ih =>
      have hsplit : before ++ name :: names = (before ++ [name]) ++ names := by simp
      rw [hsplit] at h ⊢
      cases names with
      | nil =>
          -- the last name need not lead into a directory
          rw [List.append_nil] at h ⊢
          rcases h.2 before name rfl with hleaf | ⟨searchable, hdirectory⟩
          · exact Walks.leaf hleaf
          · refine Walks.enter hdirectory ?_ (Walks.done _ false)
            rintro (hnil | hslash)
            · exact absurd rfl hnil
            · cases hslash
      | cons next rest =>
          have hprefix : before ++ [name] <+: (before ++ [name] ++ next :: rest).dropLast := by
            rw [List.dropLast_append_of_ne_nil (List.cons_ne_nil _ _)]
            exact List.prefix_append _ _
          exact Walks.enter (h.1 before name hprefix) (fun _ => rfl) (ih _ h)

theorem Settled.walks {names : List ν} (h : Settled tree names) :
    Walks tree 0 [] (names.map .enter) false names :=
  Settled.walks_append [] h

end Walks

end Lib
end EVdeSwitch
