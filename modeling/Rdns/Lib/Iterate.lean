import Mathlib.Tactic.Common

/-!
# Loops without a bound of their own

A loop is given by one round of it, which leads to the next values of its variables or
to its result; whether it ends is a question of its own.
-/

set_option autoImplicit false

namespace Rdns.Lib

variable {σ ρ : Type} {round : σ → σ ⊕ ρ}

inductive Ends (round : σ → σ ⊕ ρ) : σ → ρ → Prop
  | stop {state : σ} {result : ρ} (last : round state = .inr result) : Ends round state result
  | next {state state' : σ} {result : ρ} (more : round state = .inl state')
      (later : Ends round state' result) : Ends round state result

theorem ends_of_measure {holds : σ → Prop} {measure : σ → Nat}
    (counts : ∀ {state state'}, holds state → round state = .inl state' →
      holds state' ∧ measure state' < measure state) {state : σ} (start : holds state) :
    ∃ result, Ends round state result := by
  obtain ⟨left, bound⟩ : ∃ left, measure state < left := ⟨measure state + 1, Nat.lt_succ_self _⟩
  induction left generalizing state with
  | zero => exact absurd bound (Nat.not_lt_zero _)
  | succ left ih =>
    cases done : round state with
    | inr result => exact ⟨result, .stop done⟩
    | inl state' =>
      obtain ⟨still, fewer⟩ := counts start done
      obtain ⟨result, later⟩ := ih still (by omega)
      exact ⟨result, .next done later⟩

end Rdns.Lib
