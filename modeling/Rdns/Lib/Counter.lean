import Mathlib.Tactic.Ring

/-!
# Counters of signed machine words

A counter that starts at a word and is raised by a step in every round, with the
arithmetic of 64 bits.  From a start that is not negative it takes every value of the
range up to its end; whether it is above the end afterwards depends on the word size.
-/

set_option autoImplicit false

namespace Rdns.Lib

def counter (start step : Int64) (rounds : Nat) : Int64 :=
  Int64.ofInt (start.toInt + rounds * step.toInt)

theorem counter_zero (start step : Int64) : counter start step 0 = start := by
  simp [counter]

theorem counter_succ (start step : Int64) (rounds : Nat) :
    counter start step (rounds + 1) = counter start step rounds + step := by
  have distributed : start.toInt + ((rounds + 1 : Nat) : Int) * step.toInt =
      start.toInt + rounds * step.toInt + step.toInt := by
    push_cast
    ring
  rw [counter, distributed, Int64.ofInt_add, Int64.ofInt_toInt]
  rfl

structure Stepped (start stop step : Int64) : Prop where
  low : 0 ≤ start
  ordered : start ≤ stop
  positive : 0 < step

def lastRound (start stop step : Int64) : Nat := ((stop - start) / step).toInt.toNat

namespace Stepped

variable {start stop step : Int64}

theorem toInt_low (stepped : Stepped start stop step) : 0 ≤ start.toInt :=
  Int64.le_iff_toInt_le.mp stepped.low

theorem toInt_ordered (stepped : Stepped start stop step) : start.toInt ≤ stop.toInt :=
  Int64.le_iff_toInt_le.mp stepped.ordered

theorem toInt_positive (stepped : Stepped start stop step) : 0 < step.toInt :=
  Int64.lt_iff_toInt_lt.mp stepped.positive

theorem lastRound_eq (stepped : Stepped start stop step) :
    (lastRound start stop step : Int) = (stop.toInt - start.toInt) / step.toInt := by
  have low := stepped.toInt_low
  have ordered := stepped.toInt_ordered
  have top := stop.toInt_lt
  have span : (stop - start).toInt = stop.toInt - start.toInt := by
    rw [Int64.toInt_sub]
    exact Int.bmod_eq_of_le (by omega) (by omega)
  have apart : step ≠ -1 := by
    intro same
    have negative := stepped.positive
    rw [same] at negative
    exact absurd negative (by decide)
  have wide : 0 ≤ stop.toInt - start.toInt := by omega
  rw [lastRound, Int64.toInt_div_of_ne_right _ _ apart, span, Int.tdiv_eq_ediv_of_nonneg wide]
  exact Int.toNat_of_nonneg (Int.ediv_nonneg wide (Int.le_of_lt stepped.toInt_positive))

theorem lastRound_mul_le (stepped : Stepped start stop step) :
    start.toInt + lastRound start stop step * step.toInt ≤ stop.toInt := by
  have product := Int.ediv_mul_le (stop.toInt - start.toInt) (Int.ne_of_gt stepped.toInt_positive)
  rw [stepped.lastRound_eq]
  omega

theorem lt_lastRound_mul (stepped : Stepped start stop step) :
    stop.toInt < start.toInt + (lastRound start stop step + 1) * step.toInt := by
  have product := Int.lt_ediv_add_one_mul_self (stop.toInt - start.toInt) stepped.toInt_positive
  rw [stepped.lastRound_eq]
  omega

theorem counter_le (stepped : Stepped start stop step) {rounds : Nat}
    (within : rounds ≤ lastRound start stop step) :
    (counter start step rounds).toInt = start.toInt + rounds * step.toInt ∧
      counter start step rounds ≤ stop := by
  have low := stepped.toInt_low
  have top := stop.toInt_lt
  have last := stepped.lastRound_mul_le
  have grown : (rounds : Int) * step.toInt ≤ lastRound start stop step * step.toInt :=
    Int.mul_le_mul_of_nonneg_right (Int.ofNat_le.mpr within) (Int.le_of_lt stepped.toInt_positive)
  have above : 0 ≤ (rounds : Int) * step.toInt :=
    Int.mul_nonneg (Int.natCast_nonneg rounds) (Int.le_of_lt stepped.toInt_positive)
  have exact : (counter start step rounds).toInt = start.toInt + rounds * step.toInt :=
    Int64.toInt_ofInt_of_le (by omega) (by omega)
  refine ⟨exact, ?_⟩
  rw [Int64.le_iff_toInt_le, exact]
  omega

/-- The next round leaves the range, unless the word is too small and the counter starts
again below it. -/
theorem lt_counter_iff (stepped : Stepped start stop step) :
    stop < counter start step (lastRound start stop step + 1) ↔
      start.toInt + (lastRound start stop step + 1) * step.toInt < 2 ^ 63 := by
  have low := stepped.toInt_low
  have ordered := stepped.toInt_ordered
  have top := stop.toInt_lt
  have small := step.toInt_lt
  have inside := stepped.lastRound_mul_le
  have beyond := stepped.lt_lastRound_mul
  have last : ((lastRound start stop step : Int) + 1) * step.toInt =
      lastRound start stop step * step.toInt + step.toInt := by ring
  have reduced : (counter start step (lastRound start stop step + 1)).toInt =
      (start.toInt + (lastRound start stop step + 1) * step.toInt).bmod (2 ^ 64) := by
    rw [counter, Int64.toInt_ofInt]
    rfl
  rw [Int64.lt_iff_toInt_lt, reduced]
  by_cases fits : start.toInt + (lastRound start stop step + 1) * step.toInt < 2 ^ 63
  · rw [Int.bmod_eq_of_le (by omega) (by omega)]
    exact iff_of_true beyond fits
  · -- between one half of the words and all of them: the counter is negative
    refine iff_of_false ?_ fits
    rw [Int.bmod_def]
    split <;> omega

end Stepped

end Rdns.Lib
