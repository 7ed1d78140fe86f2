import Mathlib.Data.List.Sort
import Mathlib.Data.List.Pairwise
import Mathlib.Data.List.Perm.Basic

/-!
# Concatenations of sorted strings

A list of strings is sorted and its strings are joined without separators.  When no
string can be mistaken for the start of another, the joined string gives the list
back; when two orders agree on all pairs that could be mistaken, the two sortings
join to the same string only if they are the same list.
-/

set_option autoImplicit false

namespace Rdns.Lib

variable {α : Type}

section Order

variable [LT α] [Std.Asymm (α := α) (· < ·)] [Std.Trichotomous (α := α) (· < ·)]

theorem append_le_append_iff {front front' back back' : List α}
    (same : front.length = front'.length) :
    front ++ back ≤ front' ++ back' ↔ front < front' ∨ front = front' ∧ back ≤ back' := by
  induction front generalizing front' with
  | nil =>
    obtain rfl := List.length_eq_zero_iff.mp same.symm
    simp
  | cons first rest ih =>
    cases front' with
    | nil => cases same
    | cons first' rest' =>
      rw [List.cons_append, List.cons_append, List.cons_le_cons_iff, List.cons_lt_cons_iff,
        ih (Nat.succ.inj same), List.cons.injEq, and_or_left, ← or_assoc, ← and_assoc]

theorem append_le_append_left_iff (front : List α) {back back' : List α} :
    front ++ back ≤ front ++ back' ↔ back ≤ back' := by
  have irreflexive : ¬ front < front := fun less => Std.Asymm.asymm _ _ less less
  rw [append_le_append_iff rfl]
  exact ⟨fun either => either.elim (fun less => absurd less irreflexive) And.right,
    fun less => Or.inr ⟨rfl, less⟩⟩

end Order

/-! ## Joined strings -/

def Comparable (left right : List α) : Prop := left <+: right ∨ right <+: left

theorem comparable_of_append {left right back back' : List α}
    (same : left ++ back = right ++ back') : Comparable left right :=
  List.prefix_or_prefix_of_prefix (List.prefix_append left back)
    (same ▸ List.prefix_append right back')

theorem eq_of_flatten_eq {left right : List (List α)}
    (apart : ∀ first ∈ left, ∀ second ∈ right, Comparable first second → first = second)
    (filled : ∀ text, text ∈ left ∨ text ∈ right → text ≠ [])
    (same : left.flatten = right.flatten) : left = right := by
  induction left generalizing right with
  | nil =>
    cases right with
    | nil => rfl
    | cons second rest =>
      have empty : second ++ rest.flatten = [] := same.symm
      exact absurd (List.append_eq_nil_iff.mp empty).1 (filled second (Or.inr (by simp)))
  | cons first others ih =>
    cases right with
    | nil =>
      have empty : first ++ others.flatten = [] := same
      exact absurd (List.append_eq_nil_iff.mp empty).1 (filled first (Or.inl (by simp)))
    | cons second rest =>
      have joined : first ++ others.flatten = second ++ rest.flatten := same
      obtain rfl := apart first (by simp) second (by simp) (comparable_of_append joined)
      have tails := ih
        (fun text member other listed => apart text (by simp [member]) other (by simp [listed]))
        (fun text member =>
          filled text (member.imp (by simp +contextual) (by simp +contextual)))
        (List.append_cancel_left joined)
      rw [tails]

/-- Two sortings of the same strings, where the orders do not disagree on two strings
one of which starts the other. -/
theorem sorted_eq_of_flatten_eq {first second : List α → List α → Prop}
    {left right : List (List α)} (perm : left.Perm right)
    (refl : ∀ text ∈ left, first text text ∧ second text text)
    (agree : ∀ text ∈ left, ∀ other ∈ left, Comparable text other → first text other →
      second other text → text = other)
    (sorted : left.Pairwise first) (sorted' : right.Pairwise second)
    (same : left.flatten = right.flatten) : left = right := by
  induction left generalizing right with
  | nil => exact perm.nil_eq
  | cons head rest ih =>
    cases right with
    | nil => exact perm.eq_nil
    | cons head' rest' =>
      have joined : head ++ rest.flatten = head' ++ rest'.flatten := same
      have listed : head' ∈ head :: rest := perm.mem_iff.mpr (by simp)
      have listed' : head ∈ head' :: rest' := perm.mem_iff.mp (by simp)
      -- each head is the least of all in its own order
      have least : first head head' := by
        rcases List.mem_cons.mp listed with here | later
        · rw [here]
          exact (refl head (by simp)).1
        · exact List.rel_of_pairwise_cons sorted later
      have least' : second head' head := by
        rcases List.mem_cons.mp listed' with here | later
        · rw [← here]
          exact (refl head (by simp)).2
        · exact List.rel_of_pairwise_cons sorted' later
      obtain rfl := agree head (by simp) head' listed (comparable_of_append joined) least least'
      have tails := ih perm.cons_inv (fun text member => refl text (by simp [member]))
        (fun text member other among => agree text (by simp [member]) other (by simp [among]))
        sorted.of_cons sorted'.of_cons (List.append_cancel_left joined)
      rw [tails]

end Rdns.Lib
