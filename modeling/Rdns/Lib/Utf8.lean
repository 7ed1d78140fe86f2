import Rdns.Lib.Words
import Mathlib.Tactic.SplitIfs

/-!
# Lossy decoding of UTF-8

`String::from_utf8_lossy` as the standard library computes it: maximal valid
sequences are kept, and each maximal prefix of an invalid one becomes one
replacement character.  An encoded text is read back unchanged.
-/

set_option autoImplicit false

namespace Rdns.Lib.Utf8

def isTail (octet : UInt8) : Bool := decide (0x80 ≤ octet ∧ octet ≤ 0xBF)

/-- The second octets allowed after the first of a sequence of three or four. -/
def isSecond (first second : UInt8) : Bool :=
  if first = 0xE0 then decide (0xA0 ≤ second ∧ second ≤ 0xBF)
  else if first = 0xED then decide (0x80 ≤ second ∧ second ≤ 0x9F)
  else if first = 0xF0 then decide (0x90 ≤ second ∧ second ≤ 0xBF)
  else if first = 0xF4 then decide (0x80 ≤ second ∧ second ≤ 0x8F)
  else isTail second

def shiftIn (high : Nat) (octet : UInt8) : Nat := high * 64 + octet.toNat % 64

/-- One sequence: its character, or none where it is invalid, and what remains.
An octet past the end reads as zero. -/
def decodeOne (first : UInt8) (rest : Bytes) : Option Char × Bytes :=
  let second := rest.getD 0 0
  let third := rest.getD 1 0
  let fourth := rest.getD 2 0
  if first < 0x80 then (some (Char.ofNat first.toNat), rest)
  else if 0xC2 ≤ first ∧ first ≤ 0xDF then
    if !isTail second then (none, rest)
    else (some (Char.ofNat (shiftIn (first.toNat % 32) second)), rest.drop 1)
  else if 0xE0 ≤ first ∧ first ≤ 0xEF then
    if !isSecond first second then (none, rest)
    else if !isTail third then (none, rest.drop 1)
    else (some (Char.ofNat (shiftIn (shiftIn (first.toNat % 16) second) third)), rest.drop 2)
  else if 0xF0 ≤ first ∧ first ≤ 0xF4 then
    if !isSecond first second then (none, rest)
    else if !isTail third then (none, rest.drop 1)
    else if !isTail fourth then (none, rest.drop 2)
    else
      (some (Char.ofNat (shiftIn (shiftIn (shiftIn (first.toNat % 8) second) third) fourth)),
        rest.drop 3)
  else (none, rest)

def replacement : Char := Char.ofNat 0xFFFD

def lossyLoop : Nat → Bytes → List Char
  | _, [] => []
  | 0, _ :: _ => []
  | fuel + 1, first :: rest =>
    let (decoded, rest) := decodeOne first rest
    decoded.getD replacement :: lossyLoop fuel rest

def fromLossy (octets : Bytes) : List Char := lossyLoop octets.length octets

/-! ## Encoded text -/

theorem toNat_octet (value : Nat) (small : value < 256) : (UInt8.ofNat value).toNat = value := by
  rw [UInt8.toNat_ofNat']
  exact Nat.mod_eq_of_lt small

theorem isTail_octet (value : Nat) (small : value < 64) :
    isTail (UInt8.ofNat (value + 128)) = true := by
  have plain := toNat_octet (value + 128) (by omega)
  simp only [isTail, UInt8.le_iff_toNat_le, plain, decide_eq_true_eq, UInt8.reduceToNat]
  omega

theorem shiftIn_octet {value : Nat} (small : value < 64) (high : Nat) :
    shiftIn high (UInt8.ofNat (value + 128)) = high * 64 + value := by
  rw [shiftIn, toNat_octet _ (by omega)]
  omega

theorem isSecond_octet (lead value : Nat) (leadRange : 224 ≤ lead ∧ lead ≤ 244) (small : value < 64)
    (low : lead = 224 → 32 ≤ value) (surrogate : lead = 237 → value < 32)
    (lowFour : lead = 240 → 16 ≤ value) (highFour : lead = 244 → value < 16) :
    isSecond (UInt8.ofNat lead) (UInt8.ofNat (value + 128)) = true := by
  have first := toNat_octet lead (by omega)
  have second := toNat_octet (value + 128) (by omega)
  unfold isSecond
  simp only [← UInt8.toNat_inj, UInt8.le_iff_toNat_le, first, second, UInt8.reduceToNat]
  split_ifs with three surrogates four last
  · simp only [decide_eq_true_eq]
    have := low three
    omega
  · simp only [decide_eq_true_eq]
    have := surrogate surrogates
    omega
  · simp only [decide_eq_true_eq]
    have := lowFour four
    omega
  · simp only [decide_eq_true_eq]
    have := highFour last
    omega
  · exact isTail_octet value small

/-- The four encoding lengths, each with the branch that reads it. -/
theorem decodeOne_encode (c : Char) (rest : Bytes) :
    ∃ first tail, String.utf8EncodeChar c = first :: tail ∧
      decodeOne first (tail ++ rest) = (some c, rest) := by
  have scalar : c.val.toNat < 0xD800 ∨ (0xDFFF < c.val.toNat ∧ c.val.toNat < 0x110000) := c.valid
  have back : Char.ofNat c.val.toNat = c := Char.ofNat_toNat c
  unfold String.utf8EncodeChar
  dsimp only
  generalize c.val.toNat = value at scalar back ⊢
  split_ifs with one two three
  · refine ⟨_, _, rfl, ?_⟩
    have plain := toNat_octet value (by omega)
    unfold decodeOne
    rw [if_pos (UInt8.lt_iff_toNat_lt.mpr (by rw [plain]; simp; omega)), plain, back]
    rfl
  · refine ⟨_, _, rfl, ?_⟩
    have plain := toNat_octet (value / 64 % 32 + 192) (by omega)
    unfold decodeOne
    simp only [List.cons_append, List.nil_append, List.getD_cons_zero, List.drop_succ_cons,
      List.drop_zero, UInt8.lt_iff_toNat_lt, UInt8.le_iff_toNat_le, plain, UInt8.reduceToNat,
      isTail_octet (value % 64) (by omega), Bool.not_true]
    rw [if_neg (by omega), if_pos (by omega), if_neg Bool.false_ne_true, shiftIn_octet (by omega)]
    rw [show (value / 64 % 32 + 192) % 32 * 64 + value % 64 = value by omega, back]
  · refine ⟨_, _, rfl, ?_⟩
    have plain := toNat_octet (value / 4096 % 16 + 224) (by omega)
    have second := isSecond_octet (value / 4096 % 16 + 224) (value / 64 % 64)
      (by omega) (by omega) (by omega) (by omega) (by omega) (by omega)
    unfold decodeOne
    simp only [List.cons_append, List.nil_append, List.getD_cons_zero, List.getD_cons_succ,
      List.drop_succ_cons, List.drop_zero, UInt8.lt_iff_toNat_lt, UInt8.le_iff_toNat_le, plain,
      UInt8.reduceToNat, second, isTail_octet (value % 64) (by omega), Bool.not_true]
    rw [if_neg (by omega), if_neg (by omega), if_pos (by omega), if_neg Bool.false_ne_true,
      if_neg Bool.false_ne_true, shiftIn_octet (by omega), shiftIn_octet (by omega)]
    rw [show ((value / 4096 % 16 + 224) % 16 * 64 + value / 64 % 64) * 64 + value % 64 = value by
      omega, back]
  · refine ⟨_, _, rfl, ?_⟩
    have plain := toNat_octet (value / 262144 % 8 + 240) (by omega)
    have second := isSecond_octet (value / 262144 % 8 + 240) (value / 4096 % 64)
      (by omega) (by omega) (by omega) (by omega) (by omega) (by omega)
    unfold decodeOne
    simp only [List.cons_append, List.nil_append, List.getD_cons_zero, List.getD_cons_succ,
      List.drop_succ_cons, List.drop_zero, UInt8.lt_iff_toNat_lt, UInt8.le_iff_toNat_le, plain,
      UInt8.reduceToNat, second, isTail_octet (value % 64) (by omega),
      isTail_octet (value / 64 % 64) (by omega), Bool.not_true]
    rw [if_neg (by omega), if_neg (by omega), if_neg (by omega), if_pos (by omega),
      if_neg Bool.false_ne_true, if_neg Bool.false_ne_true, if_neg Bool.false_ne_true,
      shiftIn_octet (by omega), shiftIn_octet (by omega), shiftIn_octet (by omega)]
    rw [show (((value / 262144 % 8 + 240) % 8 * 64 + value / 4096 % 64) * 64 +
      value / 64 % 64) * 64 +
      value % 64 = value by omega, back]

theorem lossyLoop_encode (chars : List Char) :
    ∀ fuel, (chars.flatMap String.utf8EncodeChar).length ≤ fuel →
      lossyLoop fuel (chars.flatMap String.utf8EncodeChar) = chars := by
  induction chars with
  | nil =>
    intro fuel _
    cases fuel <;> rfl
  | cons c rest ih =>
    intro fuel enough
    obtain ⟨first, tail, encoded, decoded⟩ :=
      decodeOne_encode c (rest.flatMap String.utf8EncodeChar)
    rw [List.flatMap_cons, encoded, List.cons_append] at enough ⊢
    rw [List.length_cons, List.length_append] at enough
    obtain ⟨fuel, rfl⟩ : ∃ less, fuel = less + 1 := ⟨fuel - 1, by omega⟩
    rw [lossyLoop, decoded]
    dsimp only
    rw [ih fuel (by omega), Option.getD_some]

theorem fromLossy_encode (chars : List Char) :
    fromLossy (chars.flatMap String.utf8EncodeChar) = chars :=
  lossyLoop_encode chars _ le_rfl

/-! ## The shape of an encoded character -/

theorem encodeChar_ascii {c : Char} (ascii : c.toNat < 128) :
    String.utf8EncodeChar c = [UInt8.ofNat c.toNat] := by
  have small : c.val.toNat ≤ 127 := Nat.le_of_lt_succ ascii
  unfold String.utf8EncodeChar
  exact if_pos small

theorem encodeChar_wide {c : Char} (wide : 128 ≤ c.toNat) :
    ∃ lead tail, String.utf8EncodeChar c = lead :: tail ∧ 0xC0 ≤ lead ∧ tail ≠ [] ∧
      ∀ octet ∈ tail, isTail octet = true := by
  have scalar : c.val.toNat < 0xD800 ∨ (0xDFFF < c.val.toNat ∧ c.val.toNat < 0x110000) := c.valid
  have wide' : 128 ≤ c.val.toNat := wide
  unfold String.utf8EncodeChar
  dsimp only
  generalize c.val.toNat = value at scalar wide' ⊢
  have lead : ∀ payload base : Nat, 192 ≤ base → payload + base < 256 →
      (0xC0 : UInt8) ≤ UInt8.ofNat (payload + base) := by
    intro payload base high fits
    rw [UInt8.le_iff_toNat_le, toNat_octet _ fits]
    exact high.trans (Nat.le_add_left base payload)
  have tail : ∀ payload : Nat, isTail (UInt8.ofNat (payload % 64 + 128)) = true := fun payload =>
    isTail_octet (payload % 64) (Nat.mod_lt _ (by omega))
  split_ifs with one two three
  · omega
  · refine ⟨_, _, rfl, lead _ _ (by omega) (by omega), List.cons_ne_nil _ _, ?_⟩
    exact List.forall_mem_cons.mpr ⟨tail _, List.forall_mem_nil _⟩
  · refine ⟨_, _, rfl, lead _ _ (by omega) (by omega), List.cons_ne_nil _ _, ?_⟩
    exact List.forall_mem_cons.mpr
      ⟨tail _, List.forall_mem_cons.mpr ⟨tail _, List.forall_mem_nil _⟩⟩
  · refine ⟨_, _, rfl, lead _ _ (by omega) (by omega), List.cons_ne_nil _ _, ?_⟩
    exact List.forall_mem_cons.mpr ⟨tail _, List.forall_mem_cons.mpr
      ⟨tail _, List.forall_mem_cons.mpr ⟨tail _, List.forall_mem_nil _⟩⟩⟩

theorem encodeChar_high {c : Char} (wide : 128 ≤ c.toNat) {octet : UInt8}
    (member : octet ∈ String.utf8EncodeChar c) : 128 ≤ octet.toNat := by
  obtain ⟨lead, tail, shape, high, -, continued⟩ := encodeChar_wide wide
  rw [shape] at member
  rcases List.mem_cons.mp member with rfl | inside
  · exact (by decide : 128 ≤ 0xC0).trans (UInt8.le_iff_toNat_le.mp high)
  · exact UInt8.le_iff_toNat_le.mp (of_decide_eq_true (continued octet inside)).1

end Rdns.Lib.Utf8
