import Mathlib.Data.List.Infix

/-!
# Grammar — texts, what they stand for, and what is left of them

A grammar relates a text to what it begins with and to the rest behind that.  Lists between brackets,
with blanks between the tokens, are put together from the grammar of an element.
-/

namespace EVdeSwitch
namespace Lib

universe u v

/-- A text, what a beginning of it stands for, and the rest. -/
abbrev Grammar (σ : Type u) (α : Type v) : Type (max u v) :=
  List σ → α → List σ → Prop

section Combinators

variable {σ : Type u} {α : Type v} {blank : σ → Prop} {opening separator closing : σ}
variable {element element' : Grammar σ α} {text rest : List σ} {items : List α}

/-- The text is the rest behind any number of blanks. -/
inductive Blanks (blank : σ → Prop) : List σ → List σ → Prop
  | done (text : List σ) : Blanks blank text text
  | skip {c : σ} {text rest : List σ} :
      blank c → Blanks blank text rest → Blanks blank (c :: text) rest

/-- Elements with a separator between them, up to the closing bracket. -/
inductive Items (blank : σ → Prop) (separator closing : σ) (element : Grammar σ α) :
    Grammar σ (List α)
  | last {text first behind rest : List σ} {item : α} :
      Blanks blank text first → element first item behind →
        Blanks blank behind (closing :: rest) →
          Items blank separator closing element text [item] rest
  | more {text first behind next rest : List σ} {item : α} {items : List α} :
      Blanks blank text first → element first item behind →
        Blanks blank behind (separator :: next) →
          Items blank separator closing element next items rest →
            Items blank separator closing element text (item :: items) rest

/-- A list between brackets. -/
inductive Bracketed (blank : σ → Prop) (opening separator closing : σ) (element : Grammar σ α) :
    Grammar σ (List α)
  | empty {text rest : List σ} :
      Blanks blank text (closing :: rest) →
        Bracketed blank opening separator closing element (opening :: text) [] rest
  | items {text rest : List σ} {items : List α} :
      Items blank separator closing element text items rest →
        Bracketed blank opening separator closing element (opening :: text) items rest

/-- What is left is an end of the text. -/
def LeavesSuffix (element : Grammar σ α) : Prop :=
  ∀ text item rest, element text item rest → rest <:+ text

/-- On the ends of the text, what the one grammar reads the other reads as well. -/
def AgreesOn (text : List σ) (element element' : Grammar σ α) : Prop :=
  ∀ t item rest, t <:+ text → element t item rest → element' t item rest

theorem AgreesOn.of_suffix {text' : List σ} (h : AgreesOn text element element')
    (hsuffix : text' <:+ text) : AgreesOn text' element element' :=
  fun t item rest ht hread => h t item rest (ht.trans hsuffix) hread

theorem Blanks.suffix (h : Blanks blank text rest) : rest <:+ text := by
  induction h with
  | done text => exact List.suffix_rfl
  | skip _ _ ih => exact ih.trans (List.suffix_cons _ _)

theorem Blanks.trans {next : List σ} (h : Blanks blank text next) (h' : Blanks blank next rest) :
    Blanks blank text rest := by
  induction h with
  | done text => exact h'
  | skip hc _ ih => exact .skip hc (ih h')

/-- Blanks in front of a list belong to it. -/
theorem Items.of_blanks {next : List σ} (h : Blanks blank text next)
    (hitems : Items blank separator closing element next items rest) :
    Items blank separator closing element text items rest := by
  cases hitems with
  | last hfirst hitem hclosing => exact .last (h.trans hfirst) hitem hclosing
  | more hfirst hitem hseparator hmore => exact .more (h.trans hfirst) hitem hseparator hmore

/-- A list without the blanks in front of it. -/
theorem Items.exists_first (h : Items blank separator closing element text items rest) :
    ∃ first item behind, Blanks blank text first ∧ element first item behind ∧
      Items blank separator closing element first items rest := by
  cases h with
  | last hfirst hitem hclosing =>
      exact ⟨_, _, _, hfirst, hitem, .last (.done _) hitem hclosing⟩
  | more hfirst hitem hseparator hmore =>
      exact ⟨_, _, _, hfirst, hitem, .more (.done _) hitem hseparator hmore⟩

theorem Items.suffix (helement : LeavesSuffix element)
    (h : Items blank separator closing element text items rest) : rest <:+ text := by
  induction h with
  | last hfirst hitem hclosing =>
      exact (List.suffix_cons _ _).trans
        (hclosing.suffix.trans ((helement _ _ _ hitem).trans hfirst.suffix))
  | more hfirst hitem hseparator _ ih =>
      exact ih.trans ((List.suffix_cons _ _).trans
        (hseparator.suffix.trans ((helement _ _ _ hitem).trans hfirst.suffix)))

theorem Bracketed.leavesSuffix (helement : LeavesSuffix element) :
    LeavesSuffix (Bracketed blank opening separator closing element) := by
  rintro _ _ _ (hempty | hitems)
  · exact (List.suffix_cons _ _).trans (hempty.suffix.trans (List.suffix_cons _ _))
  · exact (hitems.suffix helement).trans (List.suffix_cons _ _)

theorem Items.of_agreesOn (helement : LeavesSuffix element)
    (h : Items blank separator closing element text items rest)
    (hagrees : AgreesOn text element element') :
    Items blank separator closing element' text items rest := by
  induction h with
  | last hfirst hitem hclosing =>
      exact .last hfirst (hagrees _ _ _ hfirst.suffix hitem) hclosing
  | @more text first behind next rest item items hfirst hitem hseparator _ ih =>
      have hnext : next <:+ text :=
        (List.suffix_cons _ _).trans
          (hseparator.suffix.trans ((helement _ _ _ hitem).trans hfirst.suffix))
      exact .more hfirst (hagrees _ _ _ hfirst.suffix hitem) hseparator
        (ih (hagrees.of_suffix hnext))

theorem Bracketed.of_agreesOn (helement : LeavesSuffix element)
    (h : Bracketed blank opening separator closing element text items rest)
    (hagrees : AgreesOn text element element') :
    Bracketed blank opening separator closing element' text items rest := by
  cases h with
  | empty hempty => exact .empty hempty
  | items hitems =>
      exact .items (hitems.of_agreesOn helement (hagrees.of_suffix (List.suffix_cons _ _)))

end Combinators

end Lib
end EVdeSwitch
