import Rdns.Lib.Codec

/-!
# How far a reader moves its cursor

A reader advances when every run that succeeds leaves the cursor at least so far on,
and never beyond the limit it started within.  The rules follow the way readers are
put together, so that the least length of a format is the sum over its fields, and a
counted loop takes its body's length once a round.
-/

set_option autoImplicit false

namespace Rdns.Lib

variable {ε α β : Type} {limit least least' : Nat}

/-- Within the limit, the cursor moves on by at least `least` and stays within. -/
def Advances (limit least : Nat) (reader : Reader ε α) : Prop :=
  ∀ ⦃pos : Nat⦄ ⦃value : α⦄ ⦃pos' : Nat⦄, pos ≤ limit → reader pos = .ok (value, pos') →
    pos + least ≤ pos' ∧ pos' ≤ limit

namespace Advances

theorem pure (value : α) : Advances limit 0 (Pure.pure value : Reader ε α) := by
  intro pos value' pos' inside run
  cases run
  exact ⟨le_rfl, inside⟩

theorem throw (error : ε) (next : α → Reader ε β) :
    Advances limit least (MonadExcept.throw error >>= next) := by
  intro pos value pos' _ run
  cases run

theorem bind {first : Reader ε α} {next : α → Reader ε β} (head : Advances limit least first)
    (tail : ∀ value, Advances limit least' (next value)) :
    Advances limit (least + least') (first >>= next) := by
  intro pos value pos' inside run
  obtain ⟨value', middle, begun, rest⟩ := bind_eq_ok run
  obtain ⟨forward, within⟩ := head inside begun
  obtain ⟨forward', within'⟩ := tail value' within rest
  exact ⟨by omega, within'⟩

theorem lastly {first : Reader ε α} {next : α → Reader ε β} (head : Advances limit least first)
    (tail : ∀ value, Advances limit 0 (next value)) : Advances limit least (first >>= next) :=
  head.bind tail

theorem andThen {first : Reader ε α} {next : α → Reader ε β} (head : Advances limit least first)
    (tail : ∀ value, Advances limit 0 (next value)) : Advances limit 0 (first >>= next) := by
  intro pos value pos' inside run
  obtain ⟨forward, within⟩ := head.bind tail inside run
  exact ⟨by omega, within⟩

theorem get {next : Nat → Reader ε α} (tail : ∀ pos, Advances limit least (next pos)) :
    Advances limit least (MonadState.get >>= next) := by
  intro pos value pos' inside run
  rw [get_bind] at run
  exact tail pos inside run

theorem ite {condition : Prop} [Decidable condition] {first second : Reader ε α}
    (whenTrue : Advances limit least first) (whenFalse : Advances limit least second) :
    Advances limit least (if condition then first else second) := by
  by_cases holds : condition
  · rw [if_pos holds]
    exact whenTrue
  · rw [if_neg holds]
    exact whenFalse

theorem forCount {body : β → Reader ε β} (each : ∀ acc, Advances limit least (body acc)) :
    ∀ (count : Nat) (acc : β), Advances limit (least * count) (forCount count body acc) := by
  intro count
  induction count with
  | zero => exact Advances.pure
  | succ count ih =>
    intro acc
    rw [Nat.mul_succ, Nat.add_comm]
    exact (each acc).bind ih

end Advances

end Rdns.Lib
