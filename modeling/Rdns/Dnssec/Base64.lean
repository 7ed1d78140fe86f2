import Rdns.Lib.Utf8
import Rdns.Tsig.Sign

/-!
# Key material as base64

`b64` and `unb64` of the key store, and the two other decoders of the repository:
the one for TSIG secrets and the base64url one of DNS over HTTPS.  All three drop
some octets, take the rest in groups of four digits, and drop the bits of a last
group that make no octet.
-/

set_option autoImplicit false

namespace Rdns.Dnssec

open Rdns.Lib Rdns.Proto Rdns.Tsig

/-! ## Encoding -/

def base64Alphabet : List Char :=
  "ABCDEFGHIJKLMNOPQRSTUVWXYZabcdefghijklmnopqrstuvwxyz0123456789+/".toList

def b64Digit (value : UInt32) : Char := base64Alphabet.getD (value &&& 63).toNat 'A'

def groupWord (first second third : UInt8) : UInt32 :=
  (first.toUInt32 <<< 16) ||| (second.toUInt32 <<< 8) ||| third.toUInt32

def b64Group (chunk : Bytes) : List Char :=
  let n := groupWord (chunk.getD 0 0) (chunk.getD 1 0) (chunk.getD 2 0)
  [b64Digit (n >>> 18), b64Digit (n >>> 12),
    if chunk.length > 1 then b64Digit (n >>> 6) else '=',
    if chunk.length > 2 then b64Digit n else '=']

def b64 (data : Bytes) : String := String.ofList ((chunks 3 data).flatMap b64Group)

/-! ## Decoding -/

/-- The digits below 62 are common to the two alphabets. -/
def digitValue (plus slash octet : UInt8) : Option UInt8 :=
  if 65 ≤ octet ∧ octet ≤ 90 then some (octet - 65)
  else if 97 ≤ octet ∧ octet ≤ 122 then some (octet - 97 + 26)
  else if 48 ≤ octet ∧ octet ≤ 57 then some (octet - 48 + 52)
  else if octet = plus then some 62
  else if octet = slash then some 63
  else none

/-- The inner loop over a group: accumulator and number of bits. -/
def readGroup (val : UInt8 → Option UInt8) : Bytes → UInt32 → Nat → Option (UInt32 × Nat)
  | [], acc, bits => some (acc, bits)
  | c :: rest, acc, bits =>
    match val c with
    | none => none
    | some value => readGroup val rest ((acc <<< 6) ||| value.toUInt32) (bits + 6)

def groupOctets (acc : UInt32) (bits : Nat) : Bytes :=
  let acc := acc >>> UInt32.ofNat (bits % 8)
  let bits := bits - bits % 8
  (List.range (bits / 8)).reverse.map fun step => (acc >>> UInt32.ofNat (8 * step)).toUInt8

def decodeGroups (val : UInt8 → Option UInt8) : List Bytes → Bytes → Option Bytes
  | [], out => some out
  | chunk :: rest, out =>
    match readGroup val chunk 0 0 with
    | none => none
    | some (acc, bits) => decodeGroups val rest (out ++ groupOctets acc bits)

/-- A decoder, by the octets it keeps and the digits it knows. -/
def decodeBase64 (keep : UInt8 → Bool) (val : UInt8 → Option UInt8) (text : String) :
    Option Bytes :=
  decodeGroups val (chunks 4 ((utf8 text.toList).filter keep)) []

def significant (octet : UInt8) : Bool := octet != 61 && !isAsciiWhitespace octet

def unb64 : String → Option Bytes := decodeBase64 significant (digitValue 43 47)

/-- `base64url_decode` of the DNS over HTTPS requests: white space is no digit. -/
def base64urlDecode : String → Option Bytes :=
  decodeBase64 (fun octet => octet != 61) (digitValue 45 95)

/-! ## The three decoders -/

theorem readGroup_eq (val : UInt8 → Option UInt8) (chunk : Bytes) :
    ∀ (acc : UInt32) (bits : Nat), readGroup val chunk acc bits =
      (chunk.mapM val).map fun digits : List UInt8 =>
        (digits.foldl (fun (acc : UInt32) digit => (acc <<< 6) ||| digit.toUInt32) acc,
          bits + 6 * chunk.length) := by
  induction chunk with
  | nil => exact fun _ _ => rfl
  | cons c rest ih =>
    intro acc bits
    rw [readGroup, List.mapM_cons]
    cases val c with
    | none => rfl
    | some value =>
      have sum : bits + 6 + 6 * rest.length = bits + 6 * (c :: rest).length := by
        rw [List.length_cons]
        omega
      dsimp only
      rw [ih, sum]
      cases rest.mapM val <;> rfl

theorem base64Chunk_eq (chunk : Bytes) :
    base64Chunk chunk = (readGroup base64Value chunk 0 0).map fun read =>
      groupOctets read.1 read.2 := by
  rw [readGroup_eq, Nat.zero_add, base64Chunk]
  cases chunk.mapM base64Value with
  | none => rfl
  | some digits =>
    have count : (6 * chunk.length - 6 * chunk.length % 8) / 8 = 6 * chunk.length / 8 := by omega
    simp only [Option.map_some, groupOctets, count]
    rfl

theorem decodeGroups_eq (val : UInt8 → Option UInt8) (groups : List Bytes) :
    ∀ out, decodeGroups val groups out =
      ((groups.mapM fun chunk => (readGroup val chunk 0 0).map fun read =>
        groupOctets read.1 read.2).map List.flatten).map (out ++ ·) := by
  induction groups with
  | nil =>
    intro out
    simp [decodeGroups]
  | cons chunk rest ih =>
    intro out
    rw [decodeGroups, List.mapM_cons]
    cases readGroup val chunk 0 0 with
    | none => rfl
    | some read =>
      dsimp only
      rw [ih]
      cases rest.mapM fun chunk => (readGroup val chunk 0 0).map fun read =>
        groupOctets read.1 read.2 with
      | none => rfl
      | some octets => simp

theorem base64Decode_eq_unb64 (text : String) : base64Decode text = unb64 text := by
  have chunk : base64Chunk = fun chunk => (readGroup (digitValue 43 47) chunk 0 0).map fun read =>
      groupOctets read.1 read.2 := funext base64Chunk_eq
  rw [unb64, decodeBase64, decodeGroups_eq, base64Decode, chunk]
  simp only [List.nil_append, Option.map_id']
  rfl

/-! ## Reading back what was written -/

def sextetOctet (value : Nat) : UInt8 := UInt8.ofNat (base64Alphabet.getD value 'A').toNat

theorem sextetOctet_value : ∀ value < 64,
    digitValue 43 47 (sextetOctet value) = some (UInt8.ofNat value) := by
  decide +kernel

theorem sextetOctet_significant : ∀ value < 64, significant (sextetOctet value) = true := by
  decide +kernel

theorem utf8_sextet : ∀ value < 64,
    utf8 [base64Alphabet.getD value 'A'] = [sextetOctet value] := by decide +kernel

def cleaned (chars : List Char) : Bytes := (utf8 chars).filter significant

theorem cleaned_cons (c : Char) (chars : List Char) :
    cleaned (c :: chars) = cleaned [c] ++ cleaned chars := by
  simp [cleaned, utf8]

theorem cleaned_digit (value : UInt32) (chars : List Char) :
    cleaned (b64Digit value :: chars) = sextetOctet (value.toNat % 64) :: cleaned chars := by
  have mask : UInt32.toNat 63 = 2 ^ 6 - 1 := rfl
  have small : value.toNat % 64 < 64 := Nat.mod_lt _ (by omega)
  have low : (value &&& 63).toNat = value.toNat % 64 := by
    rw [UInt32.toNat_and, mask, Nat.and_two_pow_sub_one_eq_mod]
  rw [cleaned_cons, b64Digit, low, cleaned, utf8_sextet _ small,
    List.filter_cons_of_pos (sextetOctet_significant _ small)]
  rfl

theorem cleaned_shifted (word : UInt32) (shift : Nat) (narrow : shift < 32) (chars : List Char) :
    cleaned (b64Digit (word >>> UInt32.ofNat shift) :: chars) =
      sextetOctet (word.toNat / 2 ^ shift % 64) :: cleaned chars := by
  rw [cleaned_digit, shiftRight32_toNat word shift narrow]

theorem cleaned_pad (chars : List Char) : cleaned ('=' :: chars) = cleaned chars :=
  cleaned_cons '=' chars

theorem readGroup_sextets (digits : List Nat) :
    ∀ (acc : UInt32) (bits : Nat), (∀ digit ∈ digits, digit < 64) →
      (acc.toNat + 1) * 64 ^ digits.length ≤ 2 ^ 32 →
      ∃ acc', readGroup (digitValue 43 47) (digits.map sextetOctet) acc bits =
          some (acc', bits + 6 * digits.length) ∧
        acc'.toNat = digits.foldl (fun sum digit => sum * 64 + digit) acc.toNat := by
  induction digits with
  | nil => exact fun acc bits _ _ => ⟨acc, rfl, rfl⟩
  | cons digit rest ih =>
    intro acc bits small fits
    have here : digit < 64 := small digit (List.mem_cons_self ..)
    have exact : (UInt8.ofNat digit).toUInt32.toNat = digit := by
      rw [UInt8.toNat_toUInt32, UInt8.toNat_ofNat']
      omega
    rw [List.length_cons, Nat.pow_succ, Nat.mul_comm (64 ^ rest.length), ← Nat.mul_assoc] at fits
    have room : (acc.toNat + 1) * 64 ≤ 2 ^ 32 :=
      (Nat.le_mul_of_pos_right _ (Nat.pow_pos (by omega))).trans fits
    have pushed := accumulate32_toNat acc (UInt8.ofNat digit).toUInt32 6 6 rfl (by omega)
    rw [exact, Nat.mod_eq_of_lt (by omega)] at pushed
    obtain ⟨acc', run, value⟩ := ih ((acc <<< 6) ||| (UInt8.ofNat digit).toUInt32) (bits + 6)
      (fun other member => small other (List.mem_cons_of_mem _ member)) (by
        rw [pushed]
        exact (Nat.mul_le_mul_right _ (by omega)).trans fits)
    refine ⟨acc', ?_, ?_⟩
    · rw [List.map_cons, readGroup, sextetOctet_value digit here]
      dsimp only
      rw [run, List.length_cons]
      congr 2
      omega
    · rw [value, pushed]
      rfl

def Carries (chars : List Char) (chunk : Bytes) : Prop :=
  ∃ digits : Bytes, digits.length = chunk.length + 1 ∧
    (∀ rest, cleaned (chars ++ rest) = digits ++ cleaned rest) ∧
    ∃ acc bits, readGroup (digitValue 43 47) digits 0 0 = some (acc, bits) ∧
      groupOctets acc bits = chunk

theorem groupWord_toNat (first second third : UInt8) :
    (groupWord first second third).toNat =
      first.toNat * 65536 + second.toNat * 256 + third.toNat := by
  have word := ofBe32_toNat 0 first second third
  have zero : UInt8.toUInt32 0 <<< 24 = 0 := rfl
  have none : UInt8.toNat 0 = 0 := rfl
  rw [ofBe32, zero, UInt32.zero_or, none] at word
  rw [groupWord, word]
  omega

theorem take_octet {acc : UInt32} {dropped shift : Nat} (octet : UInt8)
    (narrow : dropped < 32 ∧ shift < 32)
    (value : acc.toNat / 2 ^ dropped / 2 ^ shift % 256 = octet.toNat) :
    ((acc >>> UInt32.ofNat dropped) >>> UInt32.ofNat shift).toUInt8 = octet := by
  refine shiftRight32_toUInt8 _ shift narrow.2 octet ?_
  rw [shiftRight32_toNat acc dropped narrow.1]
  exact value

theorem carries_of_digits {chars : List Char} {chunk : Bytes} (digits : List Nat)
    (count : digits.length = chunk.length + 1) (few : digits.length ≤ 4)
    (small : ∀ digit ∈ digits, digit < 64)
    (kept : ∀ rest, cleaned (chars ++ rest) = digits.map sextetOctet ++ cleaned rest)
    (octets : ∀ acc : UInt32, acc.toNat = digits.foldl (fun sum digit => sum * 64 + digit) 0 →
      groupOctets acc (6 * digits.length) = chunk) : Carries chars chunk := by
  have fits : ((0 : UInt32).toNat + 1) * 64 ^ digits.length ≤ 2 ^ 32 := by
    have power : 64 ^ digits.length ≤ 64 ^ 4 := Nat.pow_le_pow_right (by omega) few
    have none : (0 : UInt32).toNat = 0 := rfl
    rw [none, Nat.zero_add, Nat.one_mul]
    exact power.trans (by decide)
  obtain ⟨acc, run, value⟩ := readGroup_sextets digits 0 0 small fits
  rw [Nat.zero_add] at run
  exact ⟨digits.map sextetOctet, by rw [List.length_map, count], kept, acc, _, run,
    octets acc value⟩

section Groups

variable (acc : UInt32)

theorem groupOctets_twelve :
    groupOctets acc 12 = [((acc >>> UInt32.ofNat 4) >>> UInt32.ofNat 0).toUInt8] := rfl

theorem groupOctets_eighteen :
    groupOctets acc 18 = [((acc >>> UInt32.ofNat 2) >>> UInt32.ofNat 8).toUInt8,
      ((acc >>> UInt32.ofNat 2) >>> UInt32.ofNat 0).toUInt8] := rfl

theorem groupOctets_twentyFour :
    groupOctets acc 24 = [((acc >>> UInt32.ofNat 0) >>> UInt32.ofNat 16).toUInt8,
      ((acc >>> UInt32.ofNat 0) >>> UInt32.ofNat 8).toUInt8,
      ((acc >>> UInt32.ofNat 0) >>> UInt32.ofNat 0).toUInt8] := rfl

variable (first second third : UInt8)

theorem carries_one : Carries (b64Group [first]) [first] := by
  have word := groupWord_toNat first 0 0
  have none : UInt8.toNat 0 = 0 := rfl
  have bound := first.toNat_lt
  refine carries_of_digits [(groupWord first 0 0).toNat / 2 ^ 18 % 64,
    (groupWord first 0 0).toNat / 2 ^ 12 % 64] rfl (Nat.le_of_ble_eq_true rfl) ?_ ?_ ?_
  · simp [Nat.mod_lt]
  · intro rest
    change cleaned (b64Digit (_ >>> UInt32.ofNat 18) :: b64Digit (_ >>> UInt32.ofNat 12) ::
      '=' :: '=' :: rest) = _
    rw [cleaned_shifted _ _ (by omega), cleaned_shifted _ _ (by omega), cleaned_pad, cleaned_pad]
    rfl
  · intro acc value
    rw [List.foldl_cons, List.foldl_cons, List.foldl_nil, word, none] at value
    change groupOctets acc 12 = _
    rw [groupOctets_twelve, take_octet first (by omega) (by omega)]

theorem carries_two : Carries (b64Group [first, second]) [first, second] := by
  have word := groupWord_toNat first second 0
  have none : UInt8.toNat 0 = 0 := rfl
  have bounds := And.intro first.toNat_lt second.toNat_lt
  refine carries_of_digits [(groupWord first second 0).toNat / 2 ^ 18 % 64,
    (groupWord first second 0).toNat / 2 ^ 12 % 64, (groupWord first second 0).toNat / 2 ^ 6 % 64]
    rfl (Nat.le_of_ble_eq_true rfl) ?_ ?_ ?_
  · simp [Nat.mod_lt]
  · intro rest
    change cleaned (b64Digit (_ >>> UInt32.ofNat 18) :: b64Digit (_ >>> UInt32.ofNat 12) ::
      b64Digit (_ >>> UInt32.ofNat 6) :: '=' :: rest) = _
    rw [cleaned_shifted _ _ (by omega), cleaned_shifted _ _ (by omega),
      cleaned_shifted _ _ (by omega), cleaned_pad]
    rfl
  · intro acc value
    rw [List.foldl_cons, List.foldl_cons, List.foldl_cons, List.foldl_nil, word, none] at value
    change groupOctets acc 18 = _
    rw [groupOctets_eighteen, take_octet first (by omega) (by omega),
      take_octet second (by omega) (by omega)]

theorem carries_three : Carries (b64Group [first, second, third]) [first, second, third] := by
  have word := groupWord_toNat first second third
  have bounds := And.intro first.toNat_lt (And.intro second.toNat_lt third.toNat_lt)
  refine carries_of_digits [(groupWord first second third).toNat / 2 ^ 18 % 64,
    (groupWord first second third).toNat / 2 ^ 12 % 64,
    (groupWord first second third).toNat / 2 ^ 6 % 64, (groupWord first second third).toNat % 64]
    rfl (Nat.le_of_ble_eq_true rfl) ?_ ?_ ?_
  · simp [Nat.mod_lt]
  · intro rest
    change cleaned (b64Digit (_ >>> UInt32.ofNat 18) :: b64Digit (_ >>> UInt32.ofNat 12) ::
      b64Digit (_ >>> UInt32.ofNat 6) :: b64Digit _ :: rest) = _
    rw [cleaned_shifted _ _ (by omega), cleaned_shifted _ _ (by omega),
      cleaned_shifted _ _ (by omega), cleaned_digit]
    rfl
  · intro acc value
    rw [List.foldl_cons, List.foldl_cons, List.foldl_cons, List.foldl_cons, List.foldl_nil,
      word] at value
    change groupOctets acc 24 = _
    rw [groupOctets_twentyFour, take_octet first (by omega) (by omega),
      take_octet second (by omega) (by omega), take_octet third (by omega) (by omega)]

end Groups

theorem b64Group_carries {chunk : Bytes} (nonempty : chunk ≠ []) (short : chunk.length ≤ 3) :
    Carries (b64Group chunk) chunk := by
  rcases chunk with _ | ⟨first, _ | ⟨second, _ | ⟨third, more⟩⟩⟩
  · exact absurd rfl nonempty
  · exact carries_one first
  · exact carries_two first second
  · obtain rfl : more = [] := by
      rw [List.length_cons, List.length_cons, List.length_cons] at short
      exact List.length_eq_zero_iff.mp (by omega)
    exact carries_three first second third

theorem decodeGroups_b64 (data : Bytes) : ∀ out,
    decodeGroups (digitValue 43 47) (chunks 4 (cleaned ((chunks 3 data).flatMap b64Group))) out =
      some (out ++ data) := by
  induction data using chunks_induction (by decide : 0 < 3) with
  | nil => exact fun out => congrArg some (List.append_nil out).symm
  | last chunk nonempty short =>
    intro out
    obtain ⟨digits, count, kept, acc, bits, read, octets⟩ :=
      b64Group_carries nonempty (Nat.le_of_lt short)
    have whole := kept []
    rw [List.append_nil] at whole
    rw [chunks_last nonempty (Nat.le_of_lt short), List.flatMap_singleton, whole]
    change decodeGroups _ (chunks 4 (digits ++ [])) out = _
    rw [List.append_nil, chunks_last (List.length_pos_iff.mp (by omega)) (by omega), decodeGroups,
      read]
    dsimp only
    rw [decodeGroups, octets]
  | full chunk rest full ih =>
    intro out
    obtain ⟨digits, count, kept, acc, bits, read, octets⟩ :=
      b64Group_carries (List.length_pos_iff.mp (by omega)) (Nat.le_of_eq full)
    rw [chunks_append (by decide) full, List.flatMap_cons, kept,
      chunks_append (by decide) (by omega), decodeGroups, read]
    dsimp only
    rw [ih, octets, List.append_assoc]

theorem unb64_b64 (data : Bytes) : unb64 (b64 data) = some data := by
  have back := decodeGroups_b64 data []
  rw [List.nil_append] at back
  rw [unb64, decodeBase64, b64, String.toList_ofList]
  exact back

/-! ## Other spellings -/

def isAsciiWhitespaceChar (c : Char) : Bool :=
  c.toNat < 128 && isAsciiWhitespace (UInt8.ofNat c.toNat)

/-- The second text is the first with white space put in and padding left out. -/
inductive Respelled : List Char → List Char → Prop
  | done : Respelled [] []
  | keep {text other : List Char} (c : Char) (tail : Respelled text other) :
      Respelled (c :: text) (c :: other)
  | space {text other : List Char} {c : Char} (white : isAsciiWhitespaceChar c = true)
      (tail : Respelled text other) : Respelled text (c :: other)
  | unpad {text other : List Char} (tail : Respelled text other) : Respelled ('=' :: text) other

theorem cleaned_whitespace {c : Char} (white : isAsciiWhitespaceChar c = true) (chars : List Char) :
    cleaned (c :: chars) = cleaned chars := by
  obtain ⟨ascii, octet⟩ := Bool.and_eq_true_iff.mp white
  have dropped : ¬ significant (UInt8.ofNat c.toNat) = true := by simp [significant, octet]
  rw [cleaned_cons, cleaned, utf8, List.flatMap_singleton,
    Utf8.encodeChar_ascii (of_decide_eq_true ascii), List.filter_cons_of_neg dropped]
  rfl

theorem Respelled.cleaned {text other : List Char} (respelled : Respelled text other) :
    cleaned other = cleaned text := by
  induction respelled with
  | done => rfl
  | keep c _ ih => rw [cleaned_cons, ih, ← cleaned_cons]
  | space white _ ih => rw [cleaned_whitespace white, ih]
  | unpad _ ih => rw [cleaned_pad, ih]

/-! ## The alphabet of base64url -/

def fromUrlChar (c : Char) : Char := if c = '-' then '+' else if c = '_' then '/' else c

def fromUrlOctet (octet : UInt8) : UInt8 :=
  if octet = 45 then 43 else if octet = 95 then 47 else octet

def fromUrl (text : String) : String := String.ofList (text.toList.map fromUrlChar)

def urlOnly (c : Char) : Bool := !isAsciiWhitespaceChar c && c != '+' && c != '/'

def unpadded (chars : List Char) : Bytes := (utf8 chars).filter fun octet => octet != 61

theorem unpadded_cons (c : Char) (chars : List Char) :
    unpadded (c :: chars) = unpadded [c] ++ unpadded chars := by
  simp [unpadded, utf8]

theorem digitValue_fromUrl : ∀ n < 256, n ≠ 43 → n ≠ 47 →
    digitValue 43 47 (fromUrlOctet (UInt8.ofNat n)) = digitValue 45 95 (UInt8.ofNat n) := by
  decide +kernel

theorem high_inert : ∀ n < 256, 128 ≤ n → significant (UInt8.ofNat n) = true ∧
    (UInt8.ofNat n != 61) = true ∧ fromUrlOctet (UInt8.ofNat n) = UInt8.ofNat n := by
  decide +kernel

/-- Character by character, a text of base64url is kept as the standard decoder keeps
its translation, and has no digit of the other alphabet. -/
theorem unpadded_char {c : Char} (url : urlOnly c = true) :
    cleaned [fromUrlChar c] = (unpadded [c]).map fromUrlOctet ∧
      ∀ octet ∈ unpadded [c], octet.toNat ≠ 43 ∧ octet.toNat ≠ 47 := by
  by_cases ascii : c.toNat < 128
  · have each : ∀ n < 128, urlOnly (Char.ofNat n) = true →
        cleaned [fromUrlChar (Char.ofNat n)] = (unpadded [Char.ofNat n]).map fromUrlOctet ∧
          ∀ octet ∈ unpadded [Char.ofNat n], octet.toNat ≠ 43 ∧ octet.toNat ≠ 47 := by
      decide +kernel
    have found := each c.toNat ascii
    rw [Char.ofNat_toNat] at found
    exact found url
  · -- none of the octets has a meaning for either decoder
    have high : ∀ octet ∈ utf8 [c], 128 ≤ octet.toNat := by
      intro octet member
      rw [utf8, List.flatMap_singleton] at member
      exact Utf8.encodeChar_high (by omega) member
    have inert : ∀ octet ∈ utf8 [c], significant octet = true ∧ (octet != 61) = true ∧
        fromUrlOctet octet = octet := by
      intro octet member
      have facts := high_inert octet.toNat octet.toNat_lt (high octet member)
      rwa [UInt8.ofNat_toNat] at facts
    have fixed : fromUrlChar c = c := by
      have hyphen : c ≠ '-' := by
        rintro rfl
        exact ascii (by decide)
      have underscore : c ≠ '_' := by
        rintro rfl
        exact ascii (by decide)
      rw [fromUrlChar, if_neg hyphen, if_neg underscore]
    have all : unpadded [c] = utf8 [c] :=
      List.filter_eq_self.mpr fun octet member => (inert octet member).2.1
    have kept : cleaned [c] = utf8 [c] :=
      List.filter_eq_self.mpr fun octet member => (inert octet member).1
    have same : (utf8 [c]).map fromUrlOctet = utf8 [c] :=
      (List.map_congr_left fun octet member => (inert octet member).2.2).trans (List.map_id' _)
    rw [fixed, all, kept, same]
    refine ⟨rfl, fun octet member => ?_⟩
    have large := high octet member
    omega

theorem unpadded_url {chars : List Char} (url : ∀ c ∈ chars, urlOnly c = true) :
    cleaned (chars.map fromUrlChar) = (unpadded chars).map fromUrlOctet ∧
      ∀ octet ∈ unpadded chars, octet.toNat ≠ 43 ∧ octet.toNat ≠ 47 := by
  induction chars with
  | nil => exact ⟨rfl, List.forall_mem_nil _⟩
  | cons c rest ih =>
    obtain ⟨head, headFree⟩ := unpadded_char (url c (List.mem_cons_self ..))
    obtain ⟨tail, tailFree⟩ := ih fun other member => url other (List.mem_cons_of_mem _ member)
    rw [unpadded_cons, List.map_cons, cleaned_cons, head, tail, List.map_append]
    exact ⟨rfl, List.forall_mem_append.mpr ⟨headFree, tailFree⟩⟩

section Translation

variable {val val' : UInt8 → Option UInt8} {translate : UInt8 → UInt8}

theorem readGroup_map {chunk : Bytes}
    (agree : ∀ octet ∈ chunk, val (translate octet) = val' octet) :
    ∀ acc bits, readGroup val (chunk.map translate) acc bits = readGroup val' chunk acc bits := by
  induction chunk with
  | nil => exact fun _ _ => rfl
  | cons octet rest ih =>
    intro acc bits
    rw [List.map_cons, readGroup, readGroup, agree octet (List.mem_cons_self ..)]
    cases val' octet with
    | none => rfl
    | some value => exact ih (fun other member => agree other (List.mem_cons_of_mem _ member)) _ _

theorem decodeGroups_map {groups : List Bytes}
    (agree : ∀ chunk ∈ groups, ∀ octet ∈ chunk, val (translate octet) = val' octet) :
    ∀ out, decodeGroups val (groups.map (List.map translate)) out =
      decodeGroups val' groups out := by
  induction groups with
  | nil => exact fun _ => rfl
  | cons chunk rest ih =>
    intro out
    rw [List.map_cons, decodeGroups, decodeGroups,
      readGroup_map (agree chunk (List.mem_cons_self ..))]
    cases readGroup val' chunk 0 0 with
    | none => rfl
    | some read => exact ih (fun other member => agree other (List.mem_cons_of_mem _ member)) _

end Translation

theorem base64urlDecode_eq_unb64 {text : String} (url : ∀ c ∈ text.toList, urlOnly c = true) :
    base64urlDecode text = unb64 (fromUrl text) := by
  obtain ⟨kept, free⟩ := unpadded_url url
  rw [unb64, decodeBase64, fromUrl, String.toList_ofList, base64urlDecode, decodeBase64]
  change decodeGroups _ (chunks 4 (unpadded text.toList)) [] =
    decodeGroups _ (chunks 4 (cleaned (text.toList.map fromUrlChar))) []
  rw [kept, chunks_map]
  refine (decodeGroups_map (fun chunk member octet inside => ?_) []).symm
  obtain ⟨plus, slash⟩ := free octet ((mem_chunks (by decide) member).2.2 octet inside)
  have value := digitValue_fromUrl octet.toNat octet.toNat_lt plus slash
  rwa [UInt8.ofNat_toNat] at value

/-- Key material survives base64, however it is laid out and whichever of the
decoders reads it. -/
theorem base64_decoders_agree (data : Bytes) :
    unb64 (b64 data) = some data ∧
      (∀ text : String, Respelled (b64 data).toList text.toList → unb64 text = some data) ∧
      (∀ text : String, base64Decode text = unb64 text) ∧
      ∀ text : String, (∀ c ∈ text.toList, urlOnly c = true) →
        base64urlDecode text = unb64 (fromUrl text) ∧
          base64urlDecode text = base64Decode (fromUrl text) := by
  refine ⟨unb64_b64 data, fun text respelled => ?_, base64Decode_eq_unb64, fun text url => ?_⟩
  · rw [← unb64_b64 data]
    exact congrArg (fun kept => decodeGroups (digitValue 43 47) (chunks 4 kept) [])
      respelled.cleaned
  · rw [base64Decode_eq_unb64]
    exact ⟨base64urlDecode_eq_unb64 url, base64urlDecode_eq_unb64 url⟩

theorem base64_folded_secret :
    unb64 "+/\n8" = some [251, 255] ∧ base64urlDecode "-_8" = base64Decode "+/8" := by
  obtain ⟨-, respelled, -, url⟩ := base64_decoders_agree [251, 255]
  have folded : Respelled ['+', '/', '8', '='] ['+', '/', '\n', '8'] :=
    .keep '+' (.keep '/' (.space rfl (.keep '8' (.unpad .done))))
  exact ⟨respelled "+/\n8" folded, (url "-_8" (List.all_eq_true.mp rfl)).2⟩

end Rdns.Dnssec
