import Mathlib.Data.Nat.Bitwise
import Mathlib.Tactic.Common

/-!
# Big-endian words

Network byte order of 16- and 32-bit words, as lists of octets, with the two
conversions inverse to each other.  Nothing here depends on a protocol.
-/

set_option autoImplicit false

namespace Rdns.Lib

abbrev Bytes := List UInt8

def toBe16 (word : UInt16) : Bytes := [(word >>> 8).toUInt8, word.toUInt8]

def ofBe16 (high low : UInt8) : UInt16 := (high.toUInt16 <<< 8) ||| low.toUInt16

def toBe32 (word : UInt32) : Bytes :=
  [(word >>> 24).toUInt8, (word >>> 16).toUInt8, (word >>> 8).toUInt8, word.toUInt8]

def ofBe32 (first second third fourth : UInt8) : UInt32 :=
  (first.toUInt32 <<< 24) ||| (second.toUInt32 <<< 16) ||| (third.toUInt32 <<< 8) |||
    fourth.toUInt32

@[simp] theorem toBe16_length (word : UInt16) : (toBe16 word).length = 2 := rfl

@[simp] theorem toBe32_length (word : UInt32) : (toBe32 word).length = 4 := rfl

theorem shiftLeft_or_low (high low width : Nat) (small : low < 2 ^ width) :
    high <<< width ||| low = high * 2 ^ width + low := by
  rw [← Nat.shiftLeft_add_eq_or_of_lt small, Nat.shiftLeft_eq]

theorem shiftLeft_mod {value shift width size : Nat} (small : value < 2 ^ width)
    (fits : width + shift ≤ size) : value <<< shift % 2 ^ size = value <<< shift := by
  apply Nat.mod_eq_of_lt
  rw [Nat.shiftLeft_eq]
  calc value * 2 ^ shift < 2 ^ width * 2 ^ shift :=
        Nat.mul_lt_mul_of_pos_right small (Nat.two_pow_pos shift)
    _ = 2 ^ (width + shift) := by rw [Nat.pow_add]
    _ ≤ 2 ^ size := Nat.pow_le_pow_right (by omega) fits

theorem shl16_toNat (word amount : UInt16) (shift width : Nat) (exact : amount.toNat % 16 = shift)
    (small : word.toNat < 2 ^ width) (fits : width + shift ≤ 16) :
    (word <<< amount).toNat = word.toNat <<< shift := by
  rw [UInt16.toNat_shiftLeft, exact, shiftLeft_mod small fits]

theorem shl32_toNat (word amount : UInt32) (shift width : Nat) (exact : amount.toNat % 32 = shift)
    (small : word.toNat < 2 ^ width) (fits : width + shift ≤ 32) :
    (word <<< amount).toNat = word.toNat <<< shift := by
  rw [UInt32.toNat_shiftLeft, exact, shiftLeft_mod small fits]

/-- An accumulator shifted up for new low bits; what leaves it at the top is lost. -/
theorem accumulate32_toNat (buf low amount : UInt32) (width : Nat)
    (exact : amount.toNat % 32 = width) (small : low.toNat < 2 ^ width) :
    ((buf <<< amount) ||| low).toNat = buf.toNat * 2 ^ width % 2 ^ 32 + low.toNat := by
  have aligned : buf.toNat * 2 ^ width % 2 ^ 32 = 2 ^ width * (buf.toNat % 2 ^ (32 - width)) := by
    have split : (2 : Nat) ^ 32 = 2 ^ width * 2 ^ (32 - width) := by
      rw [← Nat.pow_add]
      congr 1
      omega
    rw [split, Nat.mul_comm, Nat.mul_mod_mul_left]
  rw [UInt32.toNat_or, UInt32.toNat_shiftLeft, exact, Nat.shiftLeft_eq, aligned,
    ← Nat.two_pow_add_eq_or_of_lt small]

theorem shiftRight32_toNat (buf : UInt32) (amount : Nat) (narrow : amount < 32) :
    (buf >>> UInt32.ofNat amount).toNat = buf.toNat / 2 ^ amount := by
  have exact : (UInt32.ofNat amount).toNat % 32 = amount := by
    rw [UInt32.toNat_ofNat']
    omega
  rw [UInt32.toNat_shiftRight, exact, Nat.shiftRight_eq_div_pow]

theorem shiftRight32_toUInt8 (buf : UInt32) (amount : Nat) (narrow : amount < 32) (octet : UInt8)
    (value : buf.toNat / 2 ^ amount % 256 = octet.toNat) :
    (buf >>> UInt32.ofNat amount).toUInt8 = octet := by
  apply UInt8.toNat_inj.mp
  rw [UInt32.toNat_toUInt8, shiftRight32_toNat buf amount narrow]
  exact value

theorem mask_ne_zero (value bit : Nat) (flag : Bool) (digit : value / 2 ^ bit % 2 = flag.toNat) :
    value &&& 2 ^ bit ≠ 0 ↔ flag = true := by
  have positive := Nat.two_pow_pos bit
  rw [Nat.and_two_pow, Nat.testBit_eq_decide_div_mod_eq, digit]
  cases flag <;> simp

theorem mask16_eq (word mask : UInt16) (bit : Nat) (flag : Bool) (power : mask.toNat = 2 ^ bit)
    (digit : word.toNat / 2 ^ bit % 2 = flag.toNat) : decide (word &&& mask ≠ 0) = flag := by
  have test := mask_ne_zero word.toNat bit flag digit
  rw [← power, ← UInt16.toNat_and] at test
  have zero : word &&& mask ≠ 0 ↔ (word &&& mask).toNat ≠ 0 := not_congr UInt16.toNat_inj.symm
  exact Bool.eq_iff_iff.mpr (decide_eq_true_iff.trans (zero.trans test))

theorem mask32_eq (word mask : UInt32) (bit : Nat) (flag : Bool) (power : mask.toNat = 2 ^ bit)
    (digit : word.toNat / 2 ^ bit % 2 = flag.toNat) : decide (word &&& mask ≠ 0) = flag := by
  have test := mask_ne_zero word.toNat bit flag digit
  rw [← power, ← UInt32.toNat_and] at test
  have zero : word &&& mask ≠ 0 ↔ (word &&& mask).toNat ≠ 0 := not_congr UInt32.toNat_inj.symm
  exact Bool.eq_iff_iff.mpr (decide_eq_true_iff.trans (zero.trans test))

theorem ofBe16_toNat (high low : UInt8) :
    (ofBe16 high low).toNat = high.toNat * 256 + low.toNat := by
  have lowBound := low.toNat_lt
  rw [ofBe16, UInt16.toNat_or,
    shl16_toNat high.toUInt16 8 8 8 rfl (by simpa using high.toNat_lt) (by omega),
    UInt8.toNat_toUInt16, UInt8.toNat_toUInt16]
  exact shiftLeft_or_low _ _ 8 (by omega)

theorem ofBe16_toBe16 (word : UInt16) :
    ofBe16 (word >>> 8).toUInt8 word.toUInt8 = word := by
  apply UInt16.toNat_inj.mp
  have bound := word.toNat_lt
  rw [ofBe16_toNat]
  simp [Nat.shiftRight_eq_div_pow]
  omega

theorem toBe16_ofBe16 (high low : UInt8) : toBe16 (ofBe16 high low) = [high, low] := by
  have value := ofBe16_toNat high low
  have highBound := high.toNat_lt
  have lowBound := low.toNat_lt
  have top : (ofBe16 high low >>> 8).toUInt8 = high := by
    apply UInt8.toNat_inj.mp
    simp [Nat.shiftRight_eq_div_pow, value]
    omega
  have bottom : (ofBe16 high low).toUInt8 = low := by
    apply UInt8.toNat_inj.mp
    simp [value]
  rw [toBe16, top, bottom]

theorem toBe16_lt_iff (word word' : UInt16) :
    toBe16 word < toBe16 word' ↔ word.toNat < word'.toNat := by
  have small := word.toNat_lt
  have small' := word'.toNat_lt
  have eight : UInt16.toNat 8 % 16 = 8 := rfl
  simp only [toBe16, List.cons_lt_cons_iff, UInt8.lt_iff_toNat_lt, ← UInt8.toNat_inj,
    UInt16.toNat_toUInt8, UInt16.toNat_shiftRight, eight, Nat.shiftRight_eq_div_pow,
    List.lt_irrefl, and_false, or_false]
  omega

theorem toBe16_injective {word word' : UInt16} (same : toBe16 word = toBe16 word') :
    word = word' := by
  have back := ofBe16_toBe16 word
  rw [toBe16] at same
  simp only [toBe16, List.cons.injEq, and_true] at same
  rw [same.1, same.2, ofBe16_toBe16] at back
  exact back.symm

theorem ofBe32_toNat (first second third fourth : UInt8) :
    (ofBe32 first second third fourth).toNat =
      first.toNat * 2 ^ 24 + (second.toNat * 2 ^ 16 + (third.toNat * 2 ^ 8 + fourth.toNat)) := by
  have secondBound := second.toNat_lt
  have thirdBound := third.toNat_lt
  have fourthBound := fourth.toNat_lt
  simp only [ofBe32, UInt32.toNat_or]
  rw [shl32_toNat first.toUInt32 24 24 8 rfl (by simpa using first.toNat_lt) (by omega),
    shl32_toNat second.toUInt32 16 16 8 rfl (by simpa using second.toNat_lt) (by omega),
    shl32_toNat third.toUInt32 8 8 8 rfl (by simpa using third.toNat_lt) (by omega)]
  simp only [UInt8.toNat_toUInt32]
  rw [Nat.or_assoc, Nat.or_assoc, shiftLeft_or_low _ _ 8 fourthBound,
    shiftLeft_or_low _ _ 16 (by omega), shiftLeft_or_low _ _ 24 (by omega)]

theorem ofBe32_toBe32 (word : UInt32) :
    ofBe32 (word >>> 24).toUInt8 (word >>> 16).toUInt8 (word >>> 8).toUInt8 word.toUInt8 =
      word := by
  apply UInt32.toNat_inj.mp
  have bound := word.toNat_lt
  rw [ofBe32_toNat]
  simp [Nat.shiftRight_eq_div_pow]
  omega

theorem toBe32_injective {word word' : UInt32} (same : toBe32 word = toBe32 word') :
    word = word' := by
  have back := ofBe32_toBe32 word
  simp only [toBe32, List.cons.injEq, and_true] at same
  rw [same.1, same.2.1, same.2.2.1, same.2.2.2, ofBe32_toBe32] at back
  exact back.symm

theorem toBe32_ofBe32 (first second third fourth : UInt8) :
    toBe32 (ofBe32 first second third fourth) = [first, second, third, fourth] := by
  have value := ofBe32_toNat first second third fourth
  have firstBound := first.toNat_lt
  have secondBound := second.toNat_lt
  have thirdBound := third.toNat_lt
  have fourthBound := fourth.toNat_lt
  simp only [toBe32, List.cons.injEq, and_true, ← UInt8.toNat_inj, UInt32.toNat_toUInt8,
    UInt32.toNat_shiftRight, Nat.shiftRight_eq_div_pow, value]
  simp only [UInt32.reduceToNat, Nat.reduceMod, Nat.reducePow]
  omega

def toBe48 (word : UInt64) : Bytes :=
  [(word >>> 40).toUInt8, (word >>> 32).toUInt8, (word >>> 24).toUInt8, (word >>> 16).toUInt8,
    (word >>> 8).toUInt8, word.toUInt8]

theorem toBe48_eq (word : UInt64) :
    toBe48 word = toBe16 (word >>> 32).toUInt16 ++ toBe32 word.toUInt32 := by
  have bound := word.toNat_lt
  simp only [toBe48, toBe16, toBe32, List.cons_append, List.nil_append, List.cons.injEq, and_true,
    ← UInt8.toNat_inj, UInt64.toNat_toUInt8, UInt16.toNat_toUInt8, UInt32.toNat_toUInt8,
    UInt64.toNat_shiftRight, UInt16.toNat_shiftRight, UInt32.toNat_shiftRight,
    UInt64.toNat_toUInt16, UInt64.toNat_toUInt32, Nat.shiftRight_eq_div_pow]
  simp only [UInt64.reduceToNat, UInt32.reduceToNat, UInt16.reduceToNat, Nat.reduceMod,
    Nat.reducePow]
  omega

theorem join48 (word : UInt64) (small : word.toNat < 2 ^ 48) :
    ((word >>> 32).toUInt16.toUInt64 <<< 32) ||| word.toUInt32.toUInt64 = word := by
  have high : ((word >>> 32).toUInt16.toUInt64 <<< 32).toNat = (word.toNat / 2 ^ 32) <<< 32 := by
    simp only [UInt64.toNat_shiftLeft, UInt16.toNat_toUInt64, UInt64.toNat_toUInt16,
      UInt64.toNat_shiftRight, Nat.shiftRight_eq_div_pow, Nat.shiftLeft_eq]
    simp only [UInt64.reduceToNat, Nat.reduceMod, Nat.reducePow]
    omega
  have low : word.toUInt32.toUInt64.toNat = word.toNat % 2 ^ 32 := by
    rw [UInt32.toNat_toUInt64, UInt64.toNat_toUInt32]
  apply UInt64.toNat_inj.mp
  rw [UInt64.toNat_or, high, low, shiftLeft_or_low _ _ 32 (Nat.mod_lt _ (by omega))]
  omega

end Rdns.Lib
