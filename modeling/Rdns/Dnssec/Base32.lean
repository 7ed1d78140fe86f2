import Rdns.Dnssec.SignedZone
import Rdns.Lib.Utf8
import Rdns.Resolver.Denial
import Mathlib.Tactic.IntervalCases

/-!
# The label of an NSEC3 owner

base32hex of the signer and its decoder in the validator.  Both keep an
accumulator that is never masked; what is pending in it is the low part of the
last octet on the side of the encoder and the high part of it on the side of the
decoder.
-/

set_option autoImplicit false

namespace Rdns.Dnssec

open Rdns.Lib Rdns.Proto Rdns.Resolver

def digitOctet (value : Nat) : UInt8 := UInt8.ofNat (base32hexAlphabet.getD value '0').toNat

theorem digitOctet_read :
    ∀ value < 32, base32hexValue (digitOctet value) = some (UInt32.ofNat value) := by
  decide

def digitsLabel (digits : List Char) : Label := lowerLabel (utf8 digits)

theorem digitsLabel_cons (value : UInt32) (digits : List Char) :
    digitsLabel (base32hexDigit value :: digits) =
      digitOctet (value.toNat % 32) :: digitsLabel digits := by
  have single : ∀ low < 32, lowerLabel (utf8 [base32hexAlphabet.getD low '0']) =
      [digitOctet low] := by decide
  have mask : UInt32.toNat 0x1F = 2 ^ 5 - 1 := rfl
  have low : (value &&& 0x1F).toNat = value.toNat % 32 := by
    rw [UInt32.toNat_and, mask, Nat.and_two_pow_sub_one_eq_mod]
  have here := single (value.toNat % 32) (Nat.mod_lt _ (by omega))
  rw [base32hexDigit, low]
  simp only [digitsLabel, lowerLabel, utf8, List.flatMap_cons, List.flatMap_nil, List.append_nil,
    List.map_append] at here ⊢
  rw [here]
  rfl

theorem base32hexLoop_digit (value : Nat) (small : value < 32) (rest : Bytes) (buf : UInt32)
    (bits : Nat) (out : Bytes) :
    base32hexLoop (digitOctet value :: rest) buf bits out =
      if bits + 5 ≥ 8 then
        base32hexLoop rest ((buf <<< 5) ||| UInt32.ofNat value) (bits + 5 - 8)
          (out ++ [(((buf <<< 5) ||| UInt32.ofNat value) >>> UInt32.ofNat (bits + 5 - 8)).toUInt8])
      else base32hexLoop rest ((buf <<< 5) ||| UInt32.ofNat value) (bits + 5) out := by
  rw [base32hexLoop, digitOctet_read value small]

theorem push_digit (buf : UInt32) (value : Nat) (small : value < 32) :
    ((buf <<< 5) ||| UInt32.ofNat value).toNat = buf.toNat * 32 % 2 ^ 32 + value := by
  have exact : (UInt32.ofNat value).toNat = value := by
    rw [UInt32.toNat_ofNat']
    omega
  have sum := accumulate32_toNat buf (UInt32.ofNat value) 5 5 rfl (by rw [exact]; omega)
  rw [exact] at sum
  exact sum

theorem push_octet (buf : UInt32) (octet : UInt8) :
    ((buf <<< 8) ||| octet.toUInt32).toNat = buf.toNat * 256 % 2 ^ 32 + octet.toNat := by
  have small := octet.toNat_lt
  have sum := accumulate32_toNat buf octet.toUInt32 8 8 rfl (by rw [UInt8.toNat_toUInt32]; omega)
  rw [UInt8.toNat_toUInt32] at sum
  exact sum

/-- The last octet between the two accumulators: `bits` of it are still to be
written, the others have been read. -/
def Pending (bits : Nat) (last : UInt8) (written read : UInt32) : Prop :=
  written.toNat % 2 ^ bits = last.toNat % 2 ^ bits ∧
    read.toNat % 2 ^ (8 - bits) = last.toNat / 2 ^ bits

/-- The digit that brings the pending bits completes the last octet. -/
theorem base32hexLoop_flush {bits : Nat} (lower : 1 ≤ bits) (upper : bits ≤ 4) {last : UInt8}
    {written read : UInt32} (pending : Pending bits last written read) {value : Nat}
    (small : value < 32) (brings : value / 2 ^ (5 - bits) = written.toNat % 2 ^ bits)
    (rest out : Bytes) :
    base32hexLoop (digitOctet value :: rest) read (8 - bits) out =
      base32hexLoop rest ((read <<< 5) ||| UInt32.ofNat value) (5 - bits) (out ++ [last]) := by
  have byte := last.toNat_lt
  have sum := push_digit read value small
  obtain ⟨low, high⟩ := pending
  have count : 8 - bits + 5 - 8 = 5 - bits := by omega
  have octet : ((((read <<< 5) ||| UInt32.ofNat value) >>> UInt32.ofNat (5 - bits))).toUInt8 =
      last := by
    refine shiftRight32_toUInt8 _ _ (by omega) last ?_
    rw [sum]
    interval_cases bits <;> simp only [Nat.reduceSub, Nat.reducePow] at low high brings ⊢ <;> omega
  rw [base32hexLoop_digit value small, if_pos (by omega), count, octet]

theorem digit_toNat (written : UInt32) (octet : UInt8) (shift : Nat) (narrow : shift < 32) :
    ((((written <<< 8) ||| octet.toUInt32) >>> UInt32.ofNat shift)).toNat % 32 =
      (written.toNat * 256 % 2 ^ 32 + octet.toNat) / 2 ^ shift % 32 := by
  rw [shiftRight32_toNat _ _ narrow, push_octet]

def ReadsWhole (data : Bytes) : Prop :=
  ∀ (written read : UInt32) (out : Bytes),
    base32hexLoop (digitsLabel (base32hexEncode data written 0)) read 0 out = some (out ++ data)

/-- The same with some bits of the last octet pending. -/
def ReadsPending (data : Bytes) (bits : Nat) : Prop :=
  ∀ (last : UInt8) (written read : UInt32) (out : Bytes), Pending bits last written read →
    base32hexLoop (digitsLabel (base32hexEncode data written bits)) read (8 - bits) out =
      some (out ++ last :: data)

theorem readsPending_nil {bits : Nat} (lower : 1 ≤ bits) (upper : bits ≤ 4) :
    ReadsPending [] bits := by
  intro last written read out pending
  have exact : (UInt32.ofNat (5 - bits)).toNat % 32 = 5 - bits := by
    rw [UInt32.toNat_ofNat']
    omega
  have value : (written <<< UInt32.ofNat (5 - bits)).toNat % 32 / 2 ^ (5 - bits) =
      written.toNat % 2 ^ bits := by
    rw [UInt32.toNat_shiftLeft, exact, Nat.shiftLeft_eq]
    interval_cases bits <;> simp only [Nat.reduceSub, Nat.reducePow] <;> omega
  rw [base32hexEncode, if_pos (by omega), digitsLabel_cons,
    base32hexLoop_flush lower upper pending (Nat.mod_lt _ (by omega)) value]
  rfl

section Octet

variable {octet : UInt8} {rest : Bytes}

theorem readsWhole_cons (parts : ReadsPending rest 3) : ReadsWhole (octet :: rest) := by
  intro written read out
  have byte := octet.toNat_lt
  have sum := push_octet written octet
  have digit := push_digit read
    ((written.toNat * 256 % 2 ^ 32 + octet.toNat) / 2 ^ 3 % 32) (Nat.mod_lt _ (by omega))
  change base32hexLoop (digitsLabel (base32hexDigit _ :: base32hexEncode rest _ 3)) _ _ _ = _
  rw [digitsLabel_cons, digit_toNat written octet 3 (by omega),
    base32hexLoop_digit _ (Nat.mod_lt _ (by omega)), if_neg (by omega)]
  refine parts octet _ _ out ⟨?_, ?_⟩
  · rw [sum]
    omega
  · rw [digit]
    omega

theorem base32hexLoop_first (octet : UInt8) {bits : Nat} (lower : 1 ≤ bits) (upper : bits ≤ 4)
    {last : UInt8} {written read : UInt32} (pending : Pending bits last written read)
    (later out : Bytes) :
    base32hexLoop (digitOctet
        ((((written <<< 8) ||| octet.toUInt32) >>> UInt32.ofNat (bits + 3)).toNat % 32) :: later)
      read (8 - bits) out =
    base32hexLoop later ((read <<< 5) ||| UInt32.ofNat
      ((written.toNat * 256 % 2 ^ 32 + octet.toNat) / 2 ^ (bits + 3) % 32)) (5 - bits)
      (out ++ [last]) := by
  have byte := octet.toNat_lt
  have brings : (written.toNat * 256 % 2 ^ 32 + octet.toNat) / 2 ^ (bits + 3) % 32 /
      2 ^ (5 - bits) = written.toNat % 2 ^ bits := by
    interval_cases bits <;> simp only [Nat.reduceSub, Nat.reduceAdd, Nat.reducePow] <;> omega
  rw [digit_toNat written octet (bits + 3) (by omega)]
  exact base32hexLoop_flush lower upper pending (Nat.mod_lt _ (by omega)) brings later out

theorem readsPending_one (parts : ReadsPending rest 4) : ReadsPending (octet :: rest) 1 := by
  intro last written read out pending
  have byte := octet.toNat_lt
  have first := base32hexLoop_first octet (by omega) (by omega) pending
    (digitsLabel (base32hexEncode rest ((written <<< 8) ||| octet.toUInt32) 4)) out
  have digit := push_digit read
    ((written.toNat * 256 % 2 ^ 32 + octet.toNat) / 2 ^ 4 % 32) (Nat.mod_lt _ (by omega))
  change base32hexLoop (digitsLabel (base32hexDigit _ :: base32hexEncode rest _ 4)) _ _ _ = _
  rw [digitsLabel_cons]
  refine first.trans ((parts octet _ _ _ ⟨?_, ?_⟩).trans ?_)
  · rw [push_octet]
    omega
  · rw [digit]
    omega
  · rw [List.append_assoc]
    rfl

theorem readsPending_two (whole : ReadsWhole rest) : ReadsPending (octet :: rest) 2 := by
  intro last written read out pending
  have byte := octet.toNat_lt
  have digit := push_digit read
    ((written.toNat * 256 % 2 ^ 32 + octet.toNat) / 2 ^ 5 % 32) (Nat.mod_lt _ (by omega))
  change base32hexLoop (digitsLabel (base32hexDigit _ :: base32hexDigit _ ::
    base32hexEncode rest _ 0)) _ _ _ = _
  rw [digitsLabel_cons]
  refine (base32hexLoop_first octet (by omega) (by omega) pending _ out).trans ?_
  rw [digitsLabel_cons, digit_toNat written octet 0 (by omega),
    base32hexLoop_digit _ (Nat.mod_lt _ (by omega)), if_pos (by omega),
    shiftRight32_toUInt8 _ 0 (by omega) octet, whole, List.append_assoc, List.append_assoc]
  · rfl
  · rw [push_digit _ _ (Nat.mod_lt _ (by omega)), digit]
    omega

theorem readsPending_more {few : Nat} (lower : 1 ≤ few) (upper : few ≤ 2)
    (parts : ReadsPending rest few) : ReadsPending (octet :: rest) (few + 2) := by
  intro last written read out pending
  have byte := octet.toNat_lt
  have digit := push_digit read
    ((written.toNat * 256 % 2 ^ 32 + octet.toNat) / 2 ^ (few + 2 + 3) % 32)
    (Nat.mod_lt _ (by omega))
  have shape : base32hexEncode (octet :: rest) written (few + 2) =
      base32hexDigit (((written <<< 8) ||| octet.toUInt32) >>> UInt32.ofNat (few + 2 + 3)) ::
        base32hexDigit (((written <<< 8) ||| octet.toUInt32) >>> UInt32.ofNat few) ::
          base32hexEncode rest ((written <<< 8) ||| octet.toUInt32) few := by
    interval_cases few <;> rfl
  rw [shape, digitsLabel_cons]
  refine (base32hexLoop_first octet (by omega) (by omega) pending _ out).trans ?_
  have count : 5 - (few + 2) + 5 = 8 - few := by omega
  rw [digitsLabel_cons, digit_toNat written octet few (by omega),
    base32hexLoop_digit _ (Nat.mod_lt _ (by omega)), if_neg (by omega), count,
    parts octet _ _ _ ⟨?_, ?_⟩, List.append_assoc]
  · rfl
  · rw [push_octet]
    interval_cases few <;> omega
  · rw [push_digit _ _ (Nat.mod_lt _ (by omega)), digit]
    interval_cases few <;> simp only [Nat.reduceSub, Nat.reduceAdd, Nat.reducePow] <;> omega

end Octet

theorem base32hexLoop_encode (data : Bytes) :
    ReadsWhole data ∧ ∀ bits, 1 ≤ bits → bits ≤ 4 → ReadsPending data bits := by
  induction data with
  | nil =>
    refine ⟨fun written read out => ?_, fun bits lower upper => readsPending_nil lower upper⟩
    rw [List.append_nil]
    rfl
  | cons octet rest ih =>
    obtain ⟨whole, parts⟩ := ih
    refine ⟨readsWhole_cons (parts 3 (by omega) (by omega)), fun bits lower upper => ?_⟩
    -- one digit if there is one bit pending, two otherwise
    by_cases one : bits = 1
    · rw [one]
      exact readsPending_one (parts 4 (by omega) (by omega))
    by_cases two : bits = 2
    · rw [two]
      exact readsPending_two whole
    · obtain ⟨few, rfl⟩ : ∃ few, bits = few + 2 := ⟨bits - 2, by omega⟩
      exact readsPending_more (by omega) (by omega) (parts few (by omega) (by omega))

/-- The validator reads back the hash the signer put into the label. -/
theorem base32hexDecode_base32hex (data : Bytes) :
    base32hexDecode (lowerLabel (utf8 (base32hex data).toList)) = some data := by
  rw [base32hex, String.toList_ofList]
  exact (base32hexLoop_encode data).1 0 0 []

/-! ## Text -/

/-- `char::to_ascii_lowercase` is `Char.toLower`. -/
def base32hexCharValue (c : Char) : Option UInt32 :=
  if 48 ≤ c.toLower.toNat ∧ c.toLower.toNat ≤ 57 then some (c.val - 48)
  else if 97 ≤ c.toLower.toNat ∧ c.toLower.toNat ≤ 118 then some (c.toLower.val - 97 + 10)
  else none

def base32hexCharLoop : List Char → UInt32 → Nat → Bytes → Option Bytes
  | [], _, _, out => some out
  | c :: rest, buf, bits, out =>
    match base32hexCharValue c with
    | none => none
    | some value =>
      let buf := (buf <<< 5) ||| value
      let bits := bits + 5
      if bits ≥ 8 then
        base32hexCharLoop rest buf (bits - 8)
          (out ++ [(buf >>> UInt32.ofNat (bits - 8)).toUInt8])
      else base32hexCharLoop rest buf bits out

/-- `base32hex_decode` on its argument as the source has it, a text. -/
def base32hexDecodeText (text : String) : Option Bytes := base32hexCharLoop text.toList 0 0 []

theorem base32hexCharValue_ascii : ∀ n < 128,
    base32hexCharValue (Char.ofNat n) = base32hexValue (UInt8.ofNat n) := by
  decide +kernel

theorem base32hexValue_high : ∀ n < 256, 128 ≤ n → base32hexValue (UInt8.ofNat n) = none := by
  decide +kernel

theorem base32hexValue_lower : ∀ n < 256,
    base32hexValue (toAsciiLowercase (UInt8.ofNat n)) = base32hexValue (UInt8.ofNat n) := by
  decide +kernel

theorem toLower_wide {c : Char} (wide : 128 ≤ c.toNat) : c.toLower = c := by
  refine dif_neg fun upper => ?_
  have small : c.toNat ≤ 90 := UInt32.le_iff_toNat_le.mp upper.2
  omega

theorem base32hexCharValue_wide {c : Char} (wide : 128 ≤ c.toNat) :
    base32hexCharValue c = none := by
  rw [base32hexCharValue, toLower_wide wide, if_neg (by omega), if_neg (by omega)]

theorem base32hexCharLoop_eq (chars : List Char) : ∀ buf bits out,
    base32hexCharLoop chars buf bits out = base32hexLoop (utf8 chars) buf bits out := by
  induction chars with
  | nil => exact fun _ _ _ => rfl
  | cons c rest ih =>
    intro buf bits out
    by_cases ascii : c.toNat < 128
    · have value := base32hexCharValue_ascii c.toNat ascii
      rw [Char.ofNat_toNat] at value
      have octets : utf8 (c :: rest) = UInt8.ofNat c.toNat :: utf8 rest := by
        rw [utf8, List.flatMap_cons, Utf8.encodeChar_ascii ascii]
        rfl
      rw [octets, base32hexCharLoop, base32hexLoop, value]
      cases base32hexValue (UInt8.ofNat c.toNat) with
      | none => rfl
      | some digit =>
        dsimp only
        rw [ih, ih]
    · have wide : 128 ≤ c.toNat := by omega
      obtain ⟨lead, tail, octets, _⟩ := Utf8.encodeChar_wide wide
      have high := Utf8.encodeChar_high wide (octets ▸ List.mem_cons_self (a := lead))
      have refused := base32hexValue_high lead.toNat lead.toNat_lt high
      rw [UInt8.ofNat_toNat] at refused
      rw [utf8, List.flatMap_cons, octets, List.cons_append, base32hexCharLoop, base32hexLoop,
        refused, base32hexCharValue_wide wide]

theorem base32hexLoop_lower (octets : Bytes) : ∀ buf bits out,
    base32hexLoop (lowerLabel octets) buf bits out = base32hexLoop octets buf bits out := by
  induction octets with
  | nil => exact fun _ _ _ => rfl
  | cons octet rest ih =>
    intro buf bits out
    have value := base32hexValue_lower octet.toNat octet.toNat_lt
    rw [UInt8.ofNat_toNat] at value
    change base32hexLoop (toAsciiLowercase octet :: lowerLabel rest) buf bits out = _
    rw [base32hexLoop, base32hexLoop, value]
    cases base32hexValue octet with
    | none => rfl
    | some digit =>
      dsimp only
      rw [ih, ih]

theorem base32hexCharValue_toLower (c : Char) :
    base32hexCharValue c.toLower = base32hexCharValue c := by
  by_cases ascii : c.toNat < 128
  · have each : ∀ n < 128, base32hexCharValue (Char.ofNat n).toLower =
        base32hexCharValue (Char.ofNat n) := by decide +kernel
    have found := each c.toNat ascii
    rwa [Char.ofNat_toNat] at found
  · rw [toLower_wide (Nat.le_of_not_lt ascii)]

theorem base32hexCharLoop_toLower (chars : List Char) : ∀ buf bits out,
    base32hexCharLoop (chars.map Char.toLower) buf bits out =
      base32hexCharLoop chars buf bits out := by
  induction chars with
  | nil => exact fun _ _ _ => rfl
  | cons c rest ih =>
    intro buf bits out
    rw [List.map_cons, base32hexCharLoop, base32hexCharLoop, base32hexCharValue_toLower]
    cases base32hexCharValue c with
    | none => rfl
    | some digit =>
      dsimp only
      rw [ih, ih]

/-- Decoding inverts encoding, and does not depend on the case of the letters. -/
theorem base32hexDecodeText_base32hex (data : Bytes) :
    base32hexDecodeText (base32hex data) = some data ∧
      ∀ text : String, text.toList.map Char.toLower = (base32hex data).toList.map Char.toLower →
        base32hexDecodeText text = some data := by
  have whole : base32hexCharLoop (base32hex data).toList 0 0 [] = some data := by
    rw [base32hexCharLoop_eq, ← base32hexLoop_lower]
    exact base32hexDecode_base32hex data
  refine ⟨whole, fun text same => ?_⟩
  rw [base32hexDecodeText, ← base32hexCharLoop_toLower, same, base32hexCharLoop_toLower, whole]

theorem base32hexDecodeText_upper : base32hexDecodeText "CPNMU" = some "foo".toUTF8.toList :=
  (base32hexDecodeText_base32hex "foo".toUTF8.toList).2 "CPNMU" (by decide +kernel)

end Rdns.Dnssec
