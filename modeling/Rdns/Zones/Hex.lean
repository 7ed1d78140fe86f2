import Rdns.Lib.Utf8
import Rdns.Zones.Aliases

/-!
# Hexadecimal record data

`decode_hex` cuts its text by octets, two at a time, and leaves each pair to the number
parser of the standard library.  A pair may so start with a plus sign, and a cut may
fall inside a character, which is a panic.  Both are reached from the content of a
record in the generic form.
-/

set_option autoImplicit false

namespace Rdns.Zones

open Rdns.Lib Rdns.Proto

variable {c : Char} {octet : UInt8} {chars : List Char} {text : String} {octets : Bytes}

/-! ## What the text means -/

/-- The characters are hexadecimal digits, two for each octet. -/
inductive SpellsHex : List Char → Bytes → Prop
  | nil : SpellsHex [] []
  | pair {high low : Char} {first second : Nat} {chars : List Char} {octets : Bytes}
      (upper : toDigit 16 high = some first) (lower : toDigit 16 low = some second)
      (tail : SpellsHex chars octets) :
      SpellsHex (high :: low :: chars) (UInt8.ofNat (first * 16 + second) :: octets)

def zoneHex (text : String) : Fallible ZoneError (Option Bytes) := decodeHex text

/-- The text is decoded if it is hexadecimal, and refused otherwise. -/
def DecodesExactly (text : String) : Prop :=
  (∀ octets, zoneHex text = .ok (some octets) ↔ SpellsHex text.toList octets) ∧
    ((∀ octets, ¬ SpellsHex text.toList octets) → zoneHex text = .ok none)

/-! ## What the decoder does -/

/-- The octet of a pair of characters, the first possibly a sign. -/
def pairValue (high low : Char) : Option UInt8 :=
  match toDigit 16 low with
  | none => none
  | some second =>
    if high = '+' then some (UInt8.ofNat second)
    else (toDigit 16 high).map fun first => UInt8.ofNat (first * 16 + second)

/-- The text is made of pairs the decoder takes. -/
inductive ReadsPairs : List Char → Bytes → Prop
  | nil : ReadsPairs [] []
  | pair {high low : Char} {octet : UInt8} {chars : List Char} {octets : Bytes}
      (value : pairValue high low = some octet) (tail : ReadsPairs chars octets) :
      ReadsPairs (high :: low :: chars) (octet :: octets)

/-- The first two octets end inside a character. -/
def Straddles : List Char → Prop
  | [] => False
  | c :: rest => 2 < c.utf8Size ∨ c.utf8Size = 1 ∧ ∃ d ∈ rest.head?, 1 < d.utf8Size

/-- Behind pairs the decoder takes, a pair ends inside a character. -/
inductive CutsCharacter : List Char → Prop
  | now {rest : List Char} (straddles : Straddles rest) : CutsCharacter rest
  | pair {high low : Char} {octet : UInt8} {rest : List Char}
      (value : pairValue high low = some octet) (tail : CutsCharacter rest) :
      CutsCharacter (high :: low :: rest)

/-! ## Characters and octets -/

theorem utf8_cons (c : Char) (chars : List Char) :
    utf8 (c :: chars) = String.utf8EncodeChar c ++ utf8 chars := rfl

theorem utf8Size_eq_one_iff : c.utf8Size = 1 ↔ c.toNat < 128 := by
  rw [Char.utf8Size_eq_one_iff, UInt32.le_iff_toNat_le]
  exact Nat.lt_succ_iff.symm

theorem isContinuation_of_isTail (tail : Utf8.isTail octet = true) :
    isContinuation octet = true := by
  obtain ⟨lower, upper⟩ := of_decide_eq_true tail
  rw [UInt8.le_iff_toNat_le] at lower upper
  refine decide_eq_true ⟨UInt8.le_iff_toNat_le.mpr lower, UInt8.lt_iff_toNat_lt.mpr ?_⟩
  exact Nat.lt_succ_of_le upper

theorem isContinuation_ascii (ascii : octet.toNat < 128) : isContinuation octet = false := by
  refine decide_eq_false fun both => ?_
  have lower : 128 ≤ octet.toNat := UInt8.le_iff_toNat_le.mp both.1
  omega

theorem toNat_ascii (ascii : c.toNat < 128) : (UInt8.ofNat c.toNat).toNat = c.toNat :=
  Utf8.toNat_octet c.toNat (by omega)

/-- The octets of a text start a character. -/
theorem utf8_head (chars : List Char) :
    ((utf8 chars).head?.map isContinuation).getD false = false := by
  cases chars with
  | nil => rfl
  | cons c rest =>
    rw [utf8_cons]
    by_cases ascii : c.toNat < 128
    · rw [Utf8.encodeChar_ascii ascii]
      exact isContinuation_ascii (by rwa [toNat_ascii ascii])
    obtain ⟨lead, tail, octets, high, _⟩ := Utf8.encodeChar_wide (Nat.le_of_not_lt ascii)
    rw [octets]
    refine decide_eq_false fun both => ?_
    have lower : 0xC0 ≤ lead.toNat := UInt8.le_iff_toNat_le.mp high
    have upper : lead.toNat < 0xC0 := UInt8.lt_iff_toNat_lt.mp both.2
    omega

/-! ## One pair -/

def zonePairs (octets : Bytes) : Fallible ZoneError (Option Bytes) := decodeHexPairs octets

theorem zonePairs_cut {high low next : UInt8} {rest : Bytes}
    (inside : isContinuation next = true) :
    zonePairs (high :: low :: next :: rest) = .error .panicked := by
  rw [zonePairs, decodeHexPairs]
  exact if_pos inside

theorem zonePairs_refused {high low : UInt8} (value : hexPair high low = none)
    (chars : List Char) : zonePairs (high :: low :: utf8 chars) = .ok none := by
  rw [zonePairs, decodeHexPairs, if_neg (by rw [utf8_head]; exact Bool.false_ne_true), value]

theorem zonePairs_taken {high low : UInt8} (value : hexPair high low = some octet)
    (chars : List Char) :
    zonePairs (high :: low :: utf8 chars) =
      (zonePairs (utf8 chars)).map (Option.map (octet :: ·)) := by
  rw [zonePairs, decodeHexPairs, if_neg (by rw [utf8_head]; exact Bool.false_ne_true), value,
    zonePairs]
  cases decodeHexPairs (utf8 chars) <;> rfl

/-- A pair that ends inside a character is a panic. -/
theorem zonePairs_straddles (straddles : Straddles chars) :
    zonePairs (utf8 chars) = .error .panicked := by
  rcases chars with _ | ⟨c, rest⟩
  · exact straddles.elim
  · rcases straddles with long | ⟨single, d, next, several⟩
    · -- the second and the third octet both belong to the first character
      have wide : 128 ≤ c.toNat := Nat.le_of_not_lt fun ascii => by
        rw [utf8Size_eq_one_iff.mpr ascii] at long
        omega
      obtain ⟨lead, tail, octets, _, _, continued⟩ := Utf8.encodeChar_wide wide
      have size := String.length_utf8EncodeChar c
      rw [octets, List.length_cons] at size
      rcases tail with _ | ⟨second, _ | ⟨third, more⟩⟩
      · rw [List.length_nil] at size
        omega
      · rw [List.length_singleton] at size
        omega
      · rw [utf8_cons, octets]
        exact zonePairs_cut (isContinuation_of_isTail (continued third (by simp)))
    · have ascii := utf8Size_eq_one_iff.mp single
      have wide : 128 ≤ d.toNat := Nat.le_of_not_lt fun ascii => by
        rw [utf8Size_eq_one_iff.mpr ascii] at several
        omega
      obtain ⟨lead, tail, octets, _, nonempty, continued⟩ := Utf8.encodeChar_wide wide
      rcases rest with _ | ⟨other, rest⟩
      · cases next
      · cases next
        rcases tail with _ | ⟨second, more⟩
        · exact absurd rfl nonempty
        · rw [utf8_cons, utf8_cons, Utf8.encodeChar_ascii ascii, octets]
          exact zonePairs_cut (isContinuation_of_isTail (continued second (List.mem_cons_self ..)))

theorem hexDigit_high (high : 128 ≤ octet.toNat) : hexDigit octet = none := by
  refine if_neg fun low => ?_
  have small : octet.toNat < 128 := UInt8.lt_iff_toNat_lt.mp low
  omega

theorem hexDigit_ascii (ascii : c.toNat < 128) : hexDigit (UInt8.ofNat c.toNat) = toDigit 16 c := by
  have value := toNat_ascii ascii
  rw [hexDigit, if_pos (UInt8.lt_iff_toNat_lt.mpr (by rw [value]; exact ascii)), value,
    Char.ofNat_toNat]

theorem hexPair_ascii {high low : Char} (first : high.toNat < 128) (second : low.toNat < 128) :
    hexPair (UInt8.ofNat high.toNat) (UInt8.ofNat low.toNat) = pairValue high low := by
  have sign : UInt8.ofNat high.toNat = 43 ↔ high = '+' := by
    rw [← UInt8.toNat_inj, toNat_ascii first]
    change high.toNat = '+'.toNat ↔ high = '+'
    exact Char.toNat_inj
  rw [hexPair, pairValue, hexDigit_ascii first, hexDigit_ascii second]
  cases toDigit 16 low with
  | none => rfl
  | some value => simp only [sign]

theorem zonePairs_two (two : c.utf8Size = 2) (rest : List Char) :
    zonePairs (utf8 (c :: rest)) = .ok none := by
  have wide : 128 ≤ c.toNat := Nat.le_of_not_lt fun ascii => by
    rw [utf8Size_eq_one_iff.mpr ascii] at two
    omega
  obtain ⟨lead, tail, octets, _, _, continued⟩ := Utf8.encodeChar_wide wide
  have size := String.length_utf8EncodeChar c
  rw [octets, List.length_cons, two] at size
  obtain ⟨second, rfl⟩ := List.length_eq_one_iff.mp (Nat.succ.inj size)
  have high := Utf8.encodeChar_high wide
    (octets ▸ List.mem_cons_of_mem lead (List.mem_cons_self ..))
  rw [utf8_cons, octets]
  exact zonePairs_refused (by rw [hexPair, hexDigit_high high]) rest

section Ascii

variable {high low : Char} (first : high.toNat < 128) (second : low.toNat < 128)
  (rest : List Char)

include first second

theorem utf8_pair : utf8 (high :: low :: rest) =
    UInt8.ofNat high.toNat :: UInt8.ofNat low.toNat :: utf8 rest := by
  rw [utf8_cons, utf8_cons, Utf8.encodeChar_ascii first, Utf8.encodeChar_ascii second]
  rfl

theorem zonePairs_none (value : pairValue high low = none) :
    zonePairs (utf8 (high :: low :: rest)) = .ok none := by
  rw [utf8_pair first second]
  exact zonePairs_refused ((hexPair_ascii first second).trans value) rest

theorem zonePairs_some (value : pairValue high low = some octet) :
    zonePairs (utf8 (high :: low :: rest)) =
      (zonePairs (utf8 rest)).map (Option.map (octet :: ·)) := by
  rw [utf8_pair first second]
  exact zonePairs_taken ((hexPair_ascii first second).trans value) rest

end Ascii

/-! ## All pairs -/

theorem digit_ascii {value : Nat} (digit : toDigit 16 c = some value) : c.toNat < 128 := by
  have below : ∀ top : Char, top.toNat < 128 → c ≤ top → c.toNat < 128 := fun top small le =>
    (UInt32.le_iff_toNat_le.mp le).trans_lt small
  obtain ⟨found, _⟩ := Option.filter_eq_some_iff.mp digit
  unfold digitValue at found
  split_ifs at found with decimal lower upper
  · exact below '9' (by decide) decimal.2
  · exact below 'z' (by decide) lower.2
  · exact below 'Z' (by decide) upper.2

theorem pairValue_ascii {high low : Char} (value : pairValue high low = some octet) :
    high.toNat < 128 ∧ low.toNat < 128 := by
  unfold pairValue at value
  cases second : toDigit 16 low with
  | none =>
    rw [second] at value
    cases value
  | some lower =>
    rw [second] at value
    refine ⟨?_, digit_ascii second⟩
    by_cases sign : high = '+'
    · rw [sign]
      decide
    · obtain ⟨upper, first, _⟩ := Option.map_eq_some_iff.mp ((if_neg sign).symm.trans value)
      exact digit_ascii first

theorem not_straddles {high low : Char} {rest : List Char} (first : high.toNat < 128)
    (second : low.toNat < 128) : ¬ Straddles (high :: low :: rest) := by
  have single := utf8Size_eq_one_iff.mpr first
  rintro (long | ⟨_, d, next, several⟩)
  · omega
  · cases next
    have other := utf8Size_eq_one_iff.mpr second
    omega

theorem hex_cases (even : (utf8 chars).length % 2 = 0) :
    chars = [] ∨ Straddles chars ∨ (∃ c rest, chars = c :: rest ∧ c.utf8Size = 2) ∨
      ∃ high low rest, chars = high :: low :: rest ∧ high.toNat < 128 ∧ low.toNat < 128 ∧
        (utf8 rest).length % 2 = 0 := by
  rcases chars with _ | ⟨c, rest⟩
  · exact .inl rfl
  · have positive := Char.utf8Size_pos c
    by_cases long : 2 < c.utf8Size
    · exact .inr (.inl (.inl long))
    by_cases two : c.utf8Size = 2
    · exact .inr (.inr (.inl ⟨c, rest, rfl, two⟩))
    have single : c.utf8Size = 1 := by omega
    have ascii := utf8Size_eq_one_iff.mp single
    rcases rest with _ | ⟨d, rest⟩
    · rw [utf8_cons, List.length_append, String.length_utf8EncodeChar, single] at even
      cases even
    · by_cases several : 1 < d.utf8Size
      · exact .inr (.inl (.inr ⟨single, d, rfl, several⟩))
      · have single' : d.utf8Size = 1 := by
          have positive' := Char.utf8Size_pos d
          omega
        have ascii' := utf8Size_eq_one_iff.mp single'
        rw [utf8_pair ascii ascii', List.length_cons, List.length_cons] at even
        exact .inr (.inr (.inr ⟨c, d, rest, rfl, ascii, ascii', by omega⟩))

/-- What the decoder returns, in terms of the characters. -/
structure Outcome (chars : List Char) (result : Fallible ZoneError (Option Bytes)) : Prop where
  taken : ∀ octets, result = .ok (some octets) ↔ ReadsPairs chars octets
  cut : result = .error .panicked ↔ CutsCharacter chars
  settled : result = .error .panicked ∨ ∃ value, result = .ok value

theorem outcome_refused (nonempty : chars ≠ [])
    (unpaired : ∀ high low rest, chars = high :: low :: rest → pairValue high low = none)
    (whole : ¬ Straddles chars) : Outcome chars (.ok none) where
  taken octets := by
    refine iff_of_false (fun same => by cases same) fun reads => ?_
    cases reads with
    | nil => exact nonempty rfl
    | pair value _ =>
      rw [unpaired _ _ _ rfl] at value
      cases value
  cut := by
    refine iff_of_false (fun same => by cases same) fun cuts => ?_
    cases cuts with
    | now straddles => exact whole straddles
    | pair value _ =>
      rw [unpaired _ _ _ rfl] at value
      cases value
  settled := .inr ⟨none, rfl⟩

theorem outcome_straddles (straddles : Straddles chars) :
    Outcome chars (.error .panicked) where
  taken octets := by
    refine iff_of_false (fun same => by cases same) fun reads => ?_
    cases reads with
    | nil => exact straddles
    | pair value _ =>
      exact not_straddles (pairValue_ascii value).1 (pairValue_ascii value).2 straddles
  cut := iff_of_true rfl (.now straddles)
  settled := .inl rfl

theorem outcome_nil : Outcome [] (.ok (some [])) where
  taken octets := by
    constructor
    · intro same
      cases same
      exact .nil
    · intro reads
      cases reads
      rfl
  cut := by
    refine iff_of_false (fun same => by cases same) fun cuts => ?_
    cases cuts with
    | now straddles => exact straddles
  settled := .inr ⟨_, rfl⟩

theorem outcome_some {high low : Char} {rest : List Char}
    {result : Fallible ZoneError (Option Bytes)} (value : pairValue high low = some octet)
    (outcome : Outcome rest result) :
    Outcome (high :: low :: rest) (result.map (Option.map (octet :: ·))) where
  taken octets := by
    constructor
    · intro success
      rcases result with _ | _ | found
      · cases success
      · cases success
      · cases success
        exact .pair value ((outcome.taken found).mp rfl)
    · intro reads
      cases reads with
      | pair value' tail =>
        rw [value] at value'
        cases value'
        rw [(outcome.taken _).mpr tail]
        rfl
  cut := by
    have same : result.map (Option.map (octet :: ·)) = .error .panicked ↔
        result = .error .panicked := by
      cases result with
      | error failure => exact Iff.rfl
      | ok found => exact iff_of_false (fun same => by cases same) (fun same => by cases same)
    rw [same, outcome.cut]
    constructor
    · exact CutsCharacter.pair value
    · intro cuts
      cases cuts with
      | now straddles =>
        exact absurd straddles (not_straddles (pairValue_ascii value).1 (pairValue_ascii value).2)
      | pair _ tail => exact tail
  settled := by
    rcases outcome.settled with panicked | ⟨found, done⟩
    · rw [panicked]
      exact .inl rfl
    · rw [done]
      exact .inr ⟨_, rfl⟩

theorem zonePairs_outcome : ∀ (bound : Nat) (chars : List Char), chars.length ≤ bound →
    (utf8 chars).length % 2 = 0 → Outcome chars (zonePairs (utf8 chars)) := by
  intro bound
  induction bound with
  | zero =>
    intro chars short _
    rw [List.length_eq_zero_iff.mp (Nat.le_zero.mp short)]
    exact outcome_nil
  | succ bound ih =>
    intro chars short even
    rcases hex_cases even with rfl | straddles | ⟨c, rest, rfl, two⟩ |
      ⟨high, low, rest, rfl, first, second, later⟩
    · exact outcome_nil
    · rw [zonePairs_straddles straddles]
      exact outcome_straddles straddles
    · rw [zonePairs_two two]
      refine outcome_refused (List.cons_ne_nil c rest) (fun high low more shape => ?_) ?_
      · cases shape
        refine Option.eq_none_iff_forall_ne_some.mpr fun octet value => ?_
        have single := utf8Size_eq_one_iff.mpr (pairValue_ascii value).1
        omega
      · rintro (long | ⟨single, _⟩) <;> omega
    · cases value : pairValue high low with
      | none =>
        rw [zonePairs_none first second rest value]
        refine outcome_refused (List.cons_ne_nil _ _) (fun _ _ _ shape => ?_)
          (not_straddles first second)
        cases shape
        exact value
      | some octet =>
        rw [zonePairs_some first second rest value]
        rw [List.length_cons, List.length_cons] at short
        exact outcome_some value (ih rest (by omega) later)

theorem zoneHex_outcome (even : (utf8 text.toList).length % 2 = 0) :
    Outcome text.toList (zoneHex text) := by
  have found := zonePairs_outcome text.toList.length text.toList le_rfl even
  rw [zoneHex, decodeHex, if_neg (by rw [even]; exact fun odd => odd rfl)]
  exact found

theorem zoneHex_odd (odd : ¬ (utf8 text.toList).length % 2 = 0) : zoneHex text = .ok none := by
  rw [zoneHex, decodeHex, if_pos odd]

/-! ## Which texts are decoded exactly -/

def Panics (text : String) : Prop :=
  (utf8 text.toList).length % 2 = 0 ∧ CutsCharacter text.toList

/-- The decoder takes the whole text, with a sign in it. -/
def Signed (text : String) : Prop :=
  (∃ octets, ReadsPairs text.toList octets) ∧ '+' ∈ text.toList

theorem zoneHex_panicked_iff (text : String) : zoneHex text = .error .panicked ↔ Panics text := by
  by_cases even : (utf8 text.toList).length % 2 = 0
  · rw [(zoneHex_outcome even).cut, Panics, and_iff_right even]
  · rw [zoneHex_odd even]
    exact iff_of_false (fun same => by cases same) fun both => even both.1

theorem toDigit_plus : toDigit 16 '+' = none := by decide

theorem SpellsHex.readsPairs (spells : SpellsHex chars octets) :
    ReadsPairs chars octets ∧ '+' ∉ chars := by
  induction spells with
  | nil => exact ⟨.nil, List.not_mem_nil⟩
  | @pair high low first second chars octets upper lower _ ih =>
    have plain : high ≠ '+' := by
      rintro rfl
      rw [toDigit_plus] at upper
      cases upper
    have plain' : low ≠ '+' := by
      rintro rfl
      rw [toDigit_plus] at lower
      cases lower
    have value : pairValue high low = some (UInt8.ofNat (first * 16 + second)) := by
      rw [pairValue, lower]
      dsimp only
      rw [if_neg plain, upper]
      rfl
    refine ⟨.pair value ih.1, ?_⟩
    simp only [List.mem_cons, not_or]
    exact ⟨plain.symm, plain'.symm, ih.2⟩

theorem ReadsPairs.even (reads : ReadsPairs chars octets) : (utf8 chars).length % 2 = 0 := by
  induction reads with
  | nil => rfl
  | pair value _ ih =>
    obtain ⟨first, second⟩ := pairValue_ascii value
    rw [utf8_pair first second, List.length_cons, List.length_cons]
    omega

theorem ReadsPairs.spellsHex (reads : ReadsPairs chars octets) :
    '+' ∉ chars → SpellsHex chars octets := by
  induction reads with
  | nil => exact fun _ => .nil
  | @pair high low octet chars octets value _ ih =>
    intro unsigned
    simp only [List.mem_cons, not_or] at unsigned
    unfold pairValue at value
    cases lower : toDigit 16 low with
    | none =>
      rw [lower] at value
      cases value
    | some second =>
      rw [lower] at value
      obtain ⟨first, upper, rfl⟩ :=
        Option.map_eq_some_iff.mp ((if_neg (Ne.symm unsigned.1)).symm.trans value)
      exact .pair upper lower (ih unsigned.2.2)

theorem not_panics_signed (exactly : DecodesExactly text) : ¬ Panics text ∧ ¬ Signed text := by
  constructor
  · intro panics
    have panicked := (zoneHex_panicked_iff text).mpr panics
    have refused := exactly.2 fun octets spells => by
      rw [(exactly.1 octets).mpr spells] at panicked
      cases panicked
    rw [refused] at panicked
    cases panicked
  · rintro ⟨⟨octets, reads⟩, plus⟩
    by_cases even : (utf8 text.toList).length % 2 = 0
    · have spells := (exactly.1 octets).mp (((zoneHex_outcome even).taken octets).mpr reads)
      exact spells.readsPairs.2 plus
    · exact even reads.even

theorem decodesExactly_of (whole : ¬ Panics text) (unsigned : ¬ Signed text) :
    DecodesExactly text := by
  by_cases even : (utf8 text.toList).length % 2 = 0
  · have outcome := zoneHex_outcome even
    refine ⟨fun octets => ?_, fun unspelled => ?_⟩
    · rw [outcome.taken octets]
      constructor
      · exact fun reads => reads.spellsHex fun plus => unsigned ⟨⟨octets, reads⟩, plus⟩
      · exact fun spells => spells.readsPairs.1
    · rcases outcome.settled with panicked | ⟨_ | octets, done⟩
      · exact absurd ((zoneHex_panicked_iff text).mp panicked) whole
      · exact done
      · have reads := (outcome.taken octets).mp done
        exact absurd (reads.spellsHex fun plus => unsigned ⟨⟨octets, reads⟩, plus⟩)
          (unspelled octets)
  · refine ⟨fun octets => ?_, fun _ => zoneHex_odd even⟩
    rw [zoneHex_odd even]
    exact iff_of_false (fun same => by cases same) fun spells => even spells.readsPairs.1.even

/-! ## Record data in the generic form -/

def hexOfTokens (rtype : String) : List Tok → Option String
  | _ :: length :: rest =>
    if (typeCode rtype).isSome ∧ (parseUnsigned (2 ^ 64) length.text.toList).isSome then
      some (String.join (rest.map Tok.text))
    else none
  | _ => none

/-- The text `rdata_from_text` hands to `decode_hex`, if it comes to that. -/
def genericHex (rtype content : String) : Option String :=
  match tokenizeLine content 0 0 with
  | .ok (toks, 0) => hexOfTokens (toAsciiUppercase rtype) toks
  | _ => none

/-- Behind the length, only the decoder can panic. -/
theorem parseGeneric_reached {rtype : String} {first length : Tok} {rest : List Tok}
    {code : UInt16} {len : Nat} (coded : typeCode rtype = some code)
    (parsed : parseUnsigned (2 ^ 64) length.text.toList = some len) (line : Nat) :
    parseGeneric rtype (first :: length :: rest) line = .error .panicked ↔
      zoneHex (String.join (rest.map Tok.text)) = .error .panicked := by
  have number : parseNum (2 ^ 64) length.text line "generic rdata length" = .ok len := by
    rw [parseNum, parsed]
  simp only [parseGeneric, coded, number, zoneHex]
  change (decodeHex (String.join (rest.map Tok.text)) >>= _) = _ ↔ _
  rcases decodeHex (String.join (rest.map Tok.text)) with (_ | error) | _ | data
  · exact iff_of_true rfl rfl
  · exact iff_of_false (fun same => by cases same) (fun same => by cases same)
  · exact iff_of_false (fun same => by cases same) (fun same => by cases same)
  · refine iff_of_false (fun same => ?_) (fun same => by cases same)
    change (if data.length ≠ len then _ else _) = _ at same
    split at same <;> cases same

theorem parseGeneric_quiet {rtype : String} {toks : List Tok} (none : hexOfTokens rtype toks = none)
    (line : Nat) : parseGeneric rtype toks line ≠ .error .panicked := by
  intro panicked
  cases coded : typeCode rtype with
  | none =>
    simp only [parseGeneric, coded] at panicked
    cases panicked
  | some code =>
    rcases toks with _ | ⟨first, _ | ⟨length, rest⟩⟩
    · simp only [parseGeneric, coded] at panicked
      cases panicked
    · simp only [parseGeneric, coded] at panicked
      cases panicked
    · cases parsed : parseUnsigned (2 ^ 64) length.text.toList with
      | none =>
        have refused : parseNum (2 ^ 64) length.text line "generic rdata length" =
            badValue length.text line "generic rdata length" := by
          rw [parseNum, parsed]
        simp only [parseGeneric, coded, refused] at panicked
        cases panicked
      | some len =>
        rw [hexOfTokens, coded, parsed] at none
        cases none

theorem parseGeneric_panicked_iff (rtype : String) (toks : List Tok) (line : Nat) :
    parseGeneric rtype toks line = .error .panicked ↔
      ∃ hex, hexOfTokens rtype toks = some hex ∧ zoneHex hex = .error .panicked := by
  cases reached : hexOfTokens rtype toks with
  | none =>
    refine iff_of_false (parseGeneric_quiet reached line) ?_
    rintro ⟨hex, same, _⟩
    cases same
  | some hex =>
    simp only [Option.some.injEq, exists_eq_left']
    unfold hexOfTokens at reached
    split at reached
    · rename_i first length rest
      split at reached
      · rename_i ready
        cases reached
        obtain ⟨code, coded⟩ := Option.isSome_iff_exists.mp ready.1
        obtain ⟨len, parsed⟩ := Option.isSome_iff_exists.mp ready.2
        exact parseGeneric_reached coded parsed line
      · cases reached
    · cases reached

theorem mapErr_panicked_iff {ε ε' α : Type} {change : ε → ε'} {result : Fallible ε α} :
    mapErr change result = .error .panicked ↔ result = .error .panicked := by
  rcases result with (_ | error) | value
  · exact iff_of_true rfl rfl
  · exact iff_of_false (fun same => by cases same) (fun same => by cases same)
  · exact iff_of_false (fun same => by cases same) (fun same => by cases same)

theorem rdataFromText_panicked_iff {content : String} (generic : Generic content) (rtype : String)
    (origin : DnsName) :
    rdataFromText rtype content origin = .error .panicked ↔
      ∃ hex, genericHex rtype content = some hex ∧ zoneHex hex = .error .panicked := by
  obtain ⟨toks, depth, tokens, marked⟩ := generic
  rw [rdataFromText, genericHex, tokens]
  cases depth with
  | succ depth =>
    refine iff_of_false (fun same => by cases same) ?_
    rintro ⟨hex, reached, _⟩
    cases reached
  | zero =>
    change mapErr ZoneError.msg (parseRdata _ _ origin 0) = _ ↔
      ∃ hex, hexOfTokens (toAsciiUppercase rtype) toks = some hex ∧ _
    rw [mapErr_panicked_iff, parseRdata, if_pos marked, parseGeneric_panicked_iff]

/-- A text is decoded exactly if no pair ends inside a character and no sign passes for
a digit, and record data in the generic form panics only where its text does. -/
theorem decodeHex_exact_iff (text rtype content : String) (origin : DnsName) :
    (DecodesExactly text ↔ ¬ Panics text ∧ ¬ Signed text) ∧
      (Generic content → (rdataFromText rtype content origin ≠ .error .panicked ↔
        ∀ hex, genericHex rtype content = some hex → ¬ Panics hex)) := by
  refine ⟨⟨not_panics_signed, fun both => decodesExactly_of both.1 both.2⟩, fun generic => ?_⟩
  rw [ne_eq, rdataFromText_panicked_iff generic]
  simp only [zoneHex_panicked_iff, not_exists, not_and]

theorem accented_panics : Panics "a\u00e9b" :=
  ⟨by decide +kernel, .now (.inr ⟨by decide +kernel, '\u00e9', rfl, by decide +kernel⟩)⟩

theorem plus_signed : Signed "+f" :=
  ⟨⟨[15], .pair (by decide +kernel) .nil⟩, List.mem_cons_self ..⟩

theorem decodeHex_flaws :
    rdataFromText "TYPE65280" "\\# 2 a\u00e9b" DnsName.root = .error .panicked ∧
      ¬ DecodesExactly "a\u00e9b" ∧ zoneHex "+f" = .ok (some [15]) ∧ ¬ DecodesExactly "+f" := by
  have generic : Generic "\\# 2 a\u00e9b" :=
    ⟨[.word "\\#", .word "2", .word "a\u00e9b"], 0, by decide +kernel, rfl⟩
  have reached : genericHex "TYPE65280" "\\# 2 a\u00e9b" = some "a\u00e9b" := by decide +kernel
  refine ⟨?_, fun exactly => (not_panics_signed exactly).1 accented_panics, ?_,
    fun exactly => (not_panics_signed exactly).2 plus_signed⟩
  · exact (rdataFromText_panicked_iff generic "TYPE65280" DnsName.root).mpr
      ⟨_, reached, (zoneHex_panicked_iff _).mpr accented_panics⟩
  · exact ((zoneHex_outcome (by decide +kernel)).taken [15]).mpr (.pair (by decide +kernel) .nil)

end Rdns.Zones
