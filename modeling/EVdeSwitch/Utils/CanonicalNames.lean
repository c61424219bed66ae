import EVdeSwitch.Lib.PathWalk
import EVdeSwitch.Utils.Canonicalize

/-!
# CanonicalNames — paths as steps, and the buffer as names

The rest of a path stands for a list of steps, and the buffer `resolved` for a list of names.  This
file says what the operations of `vde_realpath` on texts do to these lists.
-/

namespace EVdeSwitch
namespace Utils

open EVdeSwitch.Lib

/-! ## Paths as steps -/

def toStep (comp : CString) : PathStep CString :=
  if comp = [DOT] then .stay
  else if comp = [DOT, DOT] then .up
  else .enter comp

/-- The components of a path. -/
def stepsOf (start : CString) : List (PathStep CString) :=
  if hcomp : component (skipSlashes start) = [] then
    []
  else
    have _hless := length_afterComponent_lt hcomp
    toStep (component (skipSlashes start)) :: stepsOf (afterComponent (skipSlashes start))
termination_by start.length

/-- The path ends in a separator. -/
def endsInSlash (start : CString) : Bool :=
  start.getLast? = some SLASH

def pathText (text : CString) : PathText CString :=
  { absolute := text.head? = some SLASH
    steps := stepsOf text
    slash := endsInSlash text }

section Components

variable {start rest : CString}

theorem stepsOf_eq_nil (h : component (skipSlashes start) = []) : stepsOf start = [] := by
  rw [stepsOf, dif_pos h]

theorem stepsOf_eq_cons (h : component (skipSlashes start) ≠ []) :
    stepsOf start =
      toStep (component (skipSlashes start)) :: stepsOf (afterComponent (skipSlashes start)) := by
  rw [stepsOf, dif_neg h]

/-- What the steps are does not depend on the separators in front. -/
theorem stepsOf_congr {other : CString} (h : skipSlashes start = skipSlashes other) :
    stepsOf start = stepsOf other := by
  by_cases hcomp : component (skipSlashes other) = []
  · rw [stepsOf_eq_nil hcomp, stepsOf_eq_nil (by rw [h]; exact hcomp)]
  · rw [stepsOf_eq_cons hcomp, stepsOf_eq_cons (by rw [h]; exact hcomp), h]

theorem slash_notMem_component : SLASH ∉ component start := by
  intro hmem
  have hne := List.mem_takeWhile_imp hmem
  simp at hne

theorem head?_skipSlashes : (skipSlashes start).head? ≠ some SLASH := by
  intro h
  have hfalse := List.head?_dropWhile_not (fun c : UInt8 => decide (c = SLASH)) start
  rw [show start.dropWhile (fun c => decide (c = SLASH)) = skipSlashes start from rfl, h] at hfalse
  simp at hfalse

/-- Only separators are left. -/
theorem skipSlashes_eq_nil (h : component (skipSlashes start) = []) : skipSlashes start = [] := by
  cases hskip : skipSlashes start with
  | nil => rfl
  | cons c rest =>
      have hhead : (skipSlashes start).head? ≠ some SLASH := head?_skipSlashes
      rw [hskip] at h hhead
      have hc : c ≠ SLASH := fun heq => hhead (by rw [heq]; rfl)
      simp [component, hc] at h

/-- The end of a path, or a separator: what is behind a component. -/
def AtSlash (rest : CString) : Prop :=
  rest ≠ [] → rest.head? = some SLASH

theorem atSlash_afterComponent : AtSlash (afterComponent start) := by
  intro hne
  have hhead := List.head?_dropWhile_not (fun c : UInt8 => decide (c ≠ SLASH)) start
  rw [show start.dropWhile (fun c => decide (c ≠ SLASH)) = afterComponent start from rfl] at hhead
  cases hrest : afterComponent start with
  | nil => exact absurd hrest hne
  | cons c rest =>
      rw [hrest] at hhead
      simpa using hhead

theorem AtSlash.component (h : AtSlash rest) : component rest = [] := by
  cases rest with
  | nil => rfl
  | cons c rest =>
      have hc : c = SLASH := by simpa using h (List.cons_ne_nil _ _)
      simp [Utils.component, hc]

/-- A component ends where the rest begins. -/
theorem AtSlash.component_append (h : AtSlash rest) (text : CString) :
    Utils.component (text ++ rest) = Utils.component text := by
  rw [Utils.component, List.takeWhile_append, show rest.takeWhile _ = [] from h.component,
    List.append_nil]
  split
  · rename_i hlength
    exact ((List.takeWhile_prefix _).eq_of_length hlength).symm
  · rfl

theorem AtSlash.afterComponent_append (h : AtSlash rest) (text : CString) :
    Utils.afterComponent (text ++ rest) = Utils.afterComponent text ++ rest := by
  have hwhole := Utils.component_append (text ++ rest)
  have htext := Utils.component_append text
  rw [h.component_append] at hwhole
  conv at hwhole => rhs; rw [← htext, List.append_assoc]
  exact List.append_cancel_left hwhole

theorem skipSlashes_append_of_ne_nil {text : CString} (h : skipSlashes text ≠ []) :
    skipSlashes (text ++ rest) = skipSlashes text ++ rest := by
  have happend := @List.dropWhile_append _ (fun c => decide (c = SLASH)) text rest
  exact happend.trans (if_neg fun hempty => h (List.isEmpty_iff.1 hempty))

theorem skipSlashes_append_of_eq_nil {text : CString} (h : skipSlashes text = []) :
    skipSlashes (text ++ rest) = skipSlashes rest := by
  have happend := @List.dropWhile_append _ (fun c => decide (c = SLASH)) text rest
  exact happend.trans (if_pos (List.isEmpty_iff.2 h))

/-- The steps of a link's target come before the rest of the path. -/
theorem stepsOf_append (h : AtSlash rest) (text : CString) :
    stepsOf (text ++ rest) = stepsOf text ++ stepsOf rest := by
  induction text using stepsOf.induct with
  | case1 text hcomp =>
      rw [stepsOf_eq_nil hcomp, List.nil_append]
      exact stepsOf_congr (skipSlashes_append_of_eq_nil (skipSlashes_eq_nil hcomp))
  | case2 text hcomp _ ih =>
      have hskip : skipSlashes text ≠ [] := fun hnil => hcomp (by rw [hnil]; rfl)
      have happend : skipSlashes (text ++ rest) = skipSlashes text ++ rest :=
        skipSlashes_append_of_ne_nil hskip
      have hcomp' : component (skipSlashes (text ++ rest)) = component (skipSlashes text) := by
        rw [happend, h.component_append]
      rw [stepsOf_eq_cons (by rw [hcomp']; exact hcomp), stepsOf_eq_cons hcomp, hcomp', happend,
        h.afterComponent_append, ih, List.cons_append]

theorem endsInSlash_append {text : CString} (h : rest ≠ []) :
    endsInSlash (text ++ rest) = endsInSlash rest := by
  rw [endsInSlash, List.getLast?_append_of_ne_nil _ h]
  rfl

/-- A path with a component ends in a separator as its rest does. -/
theorem endsInSlash_afterComponent (h : component (skipSlashes start) ≠ []) :
    endsInSlash (afterComponent (skipSlashes start)) = endsInSlash start := by
  rcases List.dropWhile_suffix (l := start) (fun c => decide (c = SLASH)) with ⟨slashes, hslashes⟩
  have hsplit : start = slashes ++ component (skipSlashes start) ++
      afterComponent (skipSlashes start) := by
    rw [List.append_assoc, component_append]
    exact hslashes.symm
  by_cases hrest : afterComponent (skipSlashes start) = []
  · rw [hrest, List.append_nil] at hsplit
    have hlast : endsInSlash (component (skipSlashes start)) = false := by
      refine decide_eq_false fun hslash => ?_
      exact slash_notMem_component (List.mem_of_getLast? hslash)
    conv_rhs => rw [hsplit, endsInSlash_append h, hlast]
    rw [hrest]
    rfl
  · conv_rhs => rw [hsplit, endsInSlash_append hrest]

/-- Behind a component a separator stands exactly if more is to come, be it the last separator. -/
theorem AtSlash.head?_iff (h : AtSlash rest) :
    rest.head? = some SLASH ↔ stepsOf rest ≠ [] ∨ endsInSlash rest = true := by
  constructor
  · intro hhead
    by_cases hcomp : Utils.component (skipSlashes rest) = []
    · -- nothing but separators
      right
      have hall : ∀ c ∈ rest, c = SLASH := by
        intro c hc
        simpa using List.dropWhile_eq_nil_iff.1 (skipSlashes_eq_nil hcomp) c hc
      have hne : rest ≠ [] := by
        rintro rfl
        cases hhead
      refine decide_eq_true ?_
      rw [List.getLast?_eq_some_getLast hne, hall _ (List.getLast_mem hne)]
    · left
      rw [stepsOf_eq_cons hcomp]
      exact List.cons_ne_nil _ _
  · intro hmore
    refine h ?_
    rintro rfl
    rcases hmore with hsteps | hslash
    · exact hsteps (stepsOf_eq_nil rfl)
    · cases hslash

end Components

/-! ## The buffer as names -/

/-- A name that a directory can have. -/
structure ValidName (name : CString) : Prop where
  ne_nil : name ≠ []
  noSlash : SLASH ∉ name
  ne_dot : name ≠ [DOT]
  ne_dots : name ≠ [DOT, DOT]

def ValidNames (names : List CString) : Prop :=
  ∀ name ∈ names, ValidName name

def joined (names : List CString) : CString :=
  names.flatMap (SLASH :: ·)

/-- The canonical absolute name. -/
def render (names : List CString) : CString :=
  if names = [] then [SLASH] else joined names

/-- The buffer holds a directory, with or without a separator at its end. -/
def Stands (resolved : CString) (dir : List CString) : Prop :=
  resolved = render dir ∨ resolved = joined dir ++ [SLASH]

section Names

variable {resolved start name : CString} {dir : List CString}

theorem joined_concat (dir : List CString) (name : CString) :
    joined (dir ++ [name]) = joined dir ++ SLASH :: name := by
  simp [joined]

theorem render_nil : render [] = [SLASH] :=
  if_pos rfl

theorem render_of_ne_nil (h : dir ≠ []) : render dir = joined dir :=
  if_neg h

theorem render_concat (dir : List CString) (name : CString) :
    render (dir ++ [name]) = joined dir ++ SLASH :: name := by
  rw [render_of_ne_nil (List.append_ne_nil_of_right_ne_nil _ (List.cons_ne_nil _ _)), joined_concat]

theorem stands_render (dir : List CString) : Stands (render dir) dir :=
  Or.inl rfl

theorem stands_slash (dir : List CString) : Stands (joined dir ++ [SLASH]) dir :=
  Or.inr rfl

theorem stands_nil : Stands resolved [] ↔ resolved = [SLASH] := by
  rw [Stands, render_nil]
  exact or_self_iff

theorem stands_concat :
    Stands resolved (dir ++ [name]) ↔
      resolved = joined dir ++ SLASH :: name ∨
        resolved = joined dir ++ SLASH :: (name ++ [SLASH]) := by
  rw [Stands, render_concat, joined_concat, List.append_assoc, List.cons_append]

theorem validNames_nil : ValidNames [] :=
  fun _ hmem => absurd hmem List.not_mem_nil

theorem ValidNames.concat (hdir : ValidNames dir) (hname : ValidName name) :
    ValidNames (dir ++ [name]) := by
  intro other hother
  rcases List.mem_append.1 hother with hold | hnew
  · exact hdir other hold
  · rw [List.mem_singleton.1 hnew]
    exact hname

theorem ValidNames.dropLast (hdir : ValidNames dir) : ValidNames dir.dropLast :=
  fun other hother => hdir other (List.dropLast_subset _ hother)

theorem ValidNames.last (hdir : ValidNames (dir ++ [name])) : ValidName name :=
  hdir name (List.mem_append_right _ (List.mem_singleton_self _))

theorem backToSlash_append {after before : CString} (h : SLASH ∉ after) :
    backToSlash (after ++ SLASH :: before) = .ok (SLASH :: before) := by
  induction after with
  | nil => exact if_pos rfl
  | cons c after ih =>
      rw [List.mem_cons, not_or] at h
      rw [List.cons_append, backToSlash, if_neg (Ne.symm h.1)]
      exact ih h.2

/-- The buffer goes back behind the separator in front of what is cut off. -/
theorem backUp_of_tail {before tail : CString} {c : UInt8} (h : SLASH ∉ tail) :
    backUp (before ++ SLASH :: (tail ++ [c])) = .ok (before ++ [SLASH]) := by
  have hlength : (before ++ SLASH :: (tail ++ [c])).length > 1 := by
    simp only [List.length_append, List.length_cons]
    omega
  have hdrop : (before ++ SLASH :: (tail ++ [c])).dropLast = before ++ SLASH :: tail := by
    rw [← List.cons_append, ← List.append_assoc, List.dropLast_concat]
  have hreverse : (before ++ SLASH :: tail).reverse = tail.reverse ++ SLASH :: before.reverse := by
    simp
  have hback : backToSlash (tail.reverse ++ SLASH :: before.reverse) =
      .ok (SLASH :: before.reverse) :=
    backToSlash_append (List.mem_reverse.not.2 h)
  rw [backUp, if_pos hlength, hdrop, hreverse, hback]
  simp [Except.map]

theorem backUp_stands (h : Stands resolved dir) (hdir : ValidNames dir) :
    backUp resolved = .ok (joined dir.dropLast ++ [SLASH]) := by
  induction dir using List.reverseRecOn with
  | nil =>
      rw [stands_nil.1 h]
      rfl
  | append_singleton dir name _ =>
      have hname := hdir.last
      rw [List.dropLast_concat]
      rcases stands_concat.1 h with hplain | hslash
      · rcases List.eq_nil_or_concat' name with hnil | ⟨tail, c, hconcat⟩
        · exact absurd hnil hname.ne_nil
        · rw [hplain, hconcat]
          refine backUp_of_tail fun hmem => hname.noSlash ?_
          rw [hconcat]
          exact List.mem_append_left _ hmem
      · rw [hslash]
        exact backUp_of_tail hname.noSlash

/-- Going back does not make the buffer longer. -/
theorem length_slash_dropLast_le (h : Stands resolved dir) :
    (joined dir.dropLast ++ [SLASH]).length ≤ resolved.length := by
  induction dir using List.reverseRecOn with
  | nil => exact Nat.le_of_eq (congrArg List.length (stands_nil.1 h).symm)
  | append_singleton dir name _ =>
      rw [List.dropLast_concat]
      rcases stands_concat.1 h with hplain | hslash
      · simp [hplain]
      · simp [hslash]

theorem getLast?_of_name (hname : ValidName name) (before : CString) :
    ∃ c, (before ++ SLASH :: name).getLast? = some c ∧ c ≠ SLASH := by
  rcases List.eq_nil_or_concat' name with hnil | ⟨tail, c, hconcat⟩
  · exact absurd hnil hname.ne_nil
  · refine ⟨c, ?_, ?_⟩
    · rw [hconcat, ← List.cons_append, ← List.append_assoc, List.getLast?_concat]
    · rintro rfl
      exact hname.noSlash (by rw [hconcat]; exact List.mem_append_right _ (List.mem_singleton_self _))

theorem putSlash_stands (h : Stands resolved dir) (hdir : ValidNames dir)
    (hroom : resolved.length < PATH_MAX) : putSlash resolved = .ok (joined dir ++ [SLASH]) := by
  have hdone : putSlash (joined dir ++ [SLASH]) = .ok (joined dir ++ [SLASH]) := by
    rw [putSlash, List.getLast?_concat]
    exact if_pos rfl
  rcases h with hplain | hslash
  · induction dir using List.reverseRecOn with
    | nil =>
        rw [hplain, render_nil]
        exact hdone
    | append_singleton dir name _ =>
        rw [render_concat] at hplain
        rcases getLast?_of_name hdir.last (joined dir) with ⟨c, hlast, hc⟩
        rw [joined_concat, ← hplain, putSlash]
        rw [← hplain] at hlast
        simp only [hlast, if_neg hc, if_pos hroom]
  · rw [hslash]
    exact hdone

theorem finish_stands (h : Stands resolved dir) (hdir : ValidNames dir)
    (hroom : resolved.length < PATH_MAX) : finish resolved = .ok (.found (render dir)) := by
  induction dir using List.reverseRecOn with
  | nil =>
      rw [stands_nil.1 h]
      rfl
  | append_singleton dir name _ =>
      rw [render_concat]
      rcases stands_concat.1 h with hplain | hslash
      · rcases getLast?_of_name hdir.last (joined dir) with ⟨c, hlast, hc⟩
        have hkeep : ¬(resolved.length > 1 ∧ resolved.getLast? = some SLASH) := by
          rintro ⟨_, hslash⟩
          rw [hplain, hlast] at hslash
          exact hc (Option.some.inj hslash)
        rw [finish, if_neg hkeep, terminate, if_pos hroom, hplain]
        rfl
      · have hsplit : resolved = (joined dir ++ SLASH :: name) ++ [SLASH] := by
          rw [hslash]
          simp
        have hcut : resolved.length > 1 ∧ resolved.getLast? = some SLASH := by
          constructor
          · rw [hslash]
            simp only [List.length_append, List.length_cons]
            omega
          · rw [hsplit, List.getLast?_concat]
        have hshort : resolved.dropLast.length < PATH_MAX := by
          rw [List.length_dropLast]
          omega
        rw [finish, if_pos hcut, terminate, if_pos hshort, hsplit, List.dropLast_concat]
        rfl

/-- The separator behind a directory can be cut off again. -/
theorem cutLast_slash (h : Stands resolved dir) (hroom : resolved.length < PATH_MAX) :
    ∃ cut, cutLast (joined dir ++ [SLASH]) = .ok cut := by
  have hlength : (joined dir).length ≤ resolved.length := by
    rcases h with hplain | hslash
    · rw [hplain, render]
      split
      · rename_i hnil
        rw [hnil]
        exact Nat.zero_le _
      · exact Nat.le_refl _
    · rw [hslash, List.length_append]
      exact Nat.le_add_right _ _
  rw [cutLast, terminate]
  split
  · rw [List.dropLast_concat, if_pos (Nat.lt_of_le_of_lt hlength hroom)]
    exact ⟨_, rfl⟩
  · rename_i hone
    rw [if_pos (Nat.lt_of_le_of_lt (Nat.not_lt.1 hone) (by decide))]
    exact ⟨_, rfl⟩

theorem take_render (names : List CString) : (render names).take 1 = [SLASH] := by
  cases names with
  | nil => rfl
  | cons name names => simp [render, joined]

/-! ## Canonical names as paths -/

theorem validName_component (hcomp : component (skipSlashes start) ≠ [])
    (hdot : component (skipSlashes start) ≠ [DOT])
    (hdots : component (skipSlashes start) ≠ [DOT, DOT]) :
    ValidName (component (skipSlashes start)) :=
  { ne_nil := hcomp
    noSlash := slash_notMem_component
    ne_dot := hdot
    ne_dots := hdots }

/-- The names that a path enters are names. -/
theorem validName_of_mem_stepsOf (h : .enter name ∈ stepsOf start) : ValidName name := by
  induction start using stepsOf.induct with
  | case1 start hcomp =>
      rw [stepsOf_eq_nil hcomp] at h
      cases h
  | case2 start hcomp _ ih =>
      rw [stepsOf_eq_cons hcomp] at h
      rcases List.mem_cons.1 h with hfirst | hrest
      · rw [toStep] at hfirst
        split at hfirst
        · cases hfirst
        · rename_i hdot
          split at hfirst
          · cases hfirst
          · rename_i hdots
            cases hfirst
            exact validName_component hcomp hdot hdots
      · exact ih hrest

theorem toStep_of_name (hdot : name ≠ [DOT]) (hdots : name ≠ [DOT, DOT]) :
    toStep name = .enter name := by
  rw [toStep, if_neg hdot, if_neg hdots]

theorem atSlash_joined (names : List CString) : AtSlash (joined names) := by
  cases names with
  | nil => exact fun hne => absurd rfl hne
  | cons name names => exact fun _ => rfl

theorem ValidName.skipSlashes_append (hname : ValidName name) (rest : CString) :
    skipSlashes (SLASH :: (name ++ rest)) = name ++ rest := by
  cases hcons : name with
  | nil => exact absurd hcons hname.ne_nil
  | cons c tail =>
      have hc : c ≠ SLASH := by
        rintro rfl
        exact hname.noSlash (hcons ▸ List.mem_cons_self)
      simp [skipSlashes, hc]

theorem ValidName.component (hname : ValidName name) : component name = name := by
  refine List.takeWhile_eq_self_iff.2 fun c hc => ?_
  have hne : c ≠ SLASH := by
    rintro rfl
    exact hname.noSlash hc
  simpa using hne

theorem ValidName.afterComponent (hname : ValidName name) : afterComponent name = [] := by
  have hsplit := component_append name
  rw [hname.component] at hsplit
  exact List.append_right_eq_self.1 hsplit

/-- A canonical name enters its names one by one. -/
theorem stepsOf_joined {names : List CString} (h : ValidNames names) :
    stepsOf (joined names) = names.map .enter := by
  induction names with
  | nil => exact stepsOf_eq_nil rfl
  | cons name names ih =>
      have hname : ValidName name := h name List.mem_cons_self
      have hrest := atSlash_joined names
      have hskip : skipSlashes (joined (name :: names)) = name ++ joined names :=
        hname.skipSlashes_append (joined names)
      have hcomp : Utils.component (skipSlashes (joined (name :: names))) = name := by
        rw [hskip, hrest.component_append, hname.component]
      have hafter : Utils.afterComponent (skipSlashes (joined (name :: names))) = joined names := by
        rw [hskip, hrest.afterComponent_append, hname.afterComponent, List.nil_append]
      rw [stepsOf_eq_cons (by rw [hcomp]; exact hname.ne_nil), hcomp, hafter,
        toStep_of_name hname.ne_dot hname.ne_dots,
        ih fun other hother => h other (List.mem_cons_of_mem _ hother), List.map_cons]

theorem stepsOf_render {names : List CString} (h : ValidNames names) :
    stepsOf (render names) = names.map .enter := by
  rw [render]
  split
  · rename_i hnil
    rw [hnil]
    exact stepsOf_eq_nil rfl
  · exact stepsOf_joined h

theorem render_injective {names names' : List CString} (h : ValidNames names)
    (h' : ValidNames names') (heq : render names = render names') : names = names' := by
  have hsteps := congrArg stepsOf heq
  rw [stepsOf_render h, stepsOf_render h'] at hsteps
  refine List.map_injective_iff.2 ?_ hsteps
  intro name name' hname
  cases hname
  rfl

theorem endsInSlash_joined {names : List CString} (h : ValidNames names) :
    endsInSlash (joined names) = false := by
  induction names using List.reverseRecOn with
  | nil => rfl
  | append_singleton names name _ =>
      rcases getLast?_of_name h.last (joined names) with ⟨c, hlast, hc⟩
      rw [joined_concat]
      refine decide_eq_false fun hslash => hc ?_
      exact Option.some.inj (hlast.symm.trans hslash)

theorem head?_render (names : List CString) : (render names).head? = some SLASH := by
  cases names with
  | nil => rfl
  | cons name names => rfl

theorem render_ne_nil (names : List CString) : render names ≠ [] := by
  intro hnil
  have hhead := head?_render names
  rw [hnil] at hhead
  cases hhead

end Names

end Utils
end EVdeSwitch
