import Rdns.Zones.Lexing

/-!
# Record data that can be read back

`RData::text` against `parse_rdata`, one type after the other.  Legible data are
those the lexer and the parser accept after they were written; what they come back
as is `reread`, which keeps the type.
-/

set_option autoImplicit false

namespace Rdns.Zones

open Rdns.Lib Rdns.Proto

variable {text : List Char} {name : DnsName} {rdata : RData}

/-! ## Characters -/

theorem isWordChar_of_printable {c : Char} (low : 33 ≤ c.toNat) (high : c.toNat ≤ 126)
    (other : c.toNat ∉ [34, 40, 41, 59]) : isWordChar c = true := by
  have dark : isWhitespace c = false := by
    unfold isWhitespace
    dsimp only
    rw [decide_eq_false_iff_not]
    omega
  simp only [List.mem_cons, List.not_mem_nil, or_false, not_or] at other
  refine isWordChar_of_rest (by rw [dark]; exact Bool.false_ne_true) ?_ ?_ ?_ ?_
  · intro same
    exact other.2.2.2 (by rw [same]; rfl)
  · intro same
    exact other.2.1 (by rw [same]; rfl)
  · intro same
    exact other.2.2.1 (by rw [same]; rfl)
  · intro same
    exact other.1 (by rw [same]; rfl)

theorem isWordChar_digitChar (digit : Nat) (small : digit < 16) :
    isWordChar (Nat.digitChar digit) = true := by
  have all : ∀ digit : Fin 16, isWordChar (Nat.digitChar digit.val) = true := by decide
  exact all ⟨digit, small⟩

theorem isWordChar_displayNat (value : Nat) : ∀ c ∈ displayNat value, isWordChar c = true := by
  intro c member
  obtain ⟨digit, small, rfl⟩ := toDigit_of_mem (by omega) (by omega) value c member
  exact isWordChar_digitChar digit (by omega)

def wordOf (text : List Char) : Tok := .word (String.ofList text)

@[simp] theorem wordOf_text (text : List Char) : (wordOf text).text = String.ofList text := rfl

@[simp] theorem wordOf_written (text : List Char) : (wordOf text).written = text :=
  String.toList_ofList

theorem wordOf_readable (filled : text ≠ []) (word : ∀ c ∈ text, isWordChar c = true) :
    (wordOf text).Readable := by
  unfold wordOf Tok.Readable
  dsimp only
  rw [String.toList_ofList]
  exact ⟨filled, word⟩

theorem wordOf_displayNat_readable (value : Nat) : (wordOf (displayNat value)).Readable :=
  wordOf_readable Nat.toDigits_ne_nil (isWordChar_displayNat value)

theorem parseNum_displayNat {limit value : Nat} (bounded : value < limit) (line : Nat)
    (what : String) : parseNum limit (String.ofList (displayNat value)) line what = .ok value := by
  rw [parseNum, String.toList_ofList, parseUnsigned_displayNat bounded]

theorem parseU16_displayNat (value : UInt16) (line : Nat) (what : String) :
    parseU16 (String.ofList (displayNat value.toNat)) line what = .ok value := by
  rw [parseU16, parseNum_displayNat value.toNat_lt]
  simp [bind, Except.bind, pure, Except.pure]

theorem parseU32_displayNat (value : UInt32) (line : Nat) (what : String) :
    parseU32 (String.ofList (displayNat value.toNat)) line what = .ok value := by
  rw [parseU32, parseNum_displayNat value.toNat_lt]
  simp [bind, Except.bind, pure, Except.pure]

/-! ## Type names -/

def unnamedTypes : List UInt16 := [typeOpt, typeTsig, typeIxfr, typeAxfr, typeAny]

structure NamesType (name : String) : Prop where
  upper : toAsciiUppercase name = name
  readable : (Tok.word name).Readable
  notNumber : isNumber name = false
  notClass : eqIgnoreAsciiCase name "IN" = false

theorem namesType_table : ∀ entry ∈ typeNames,
    toAsciiUppercase entry.2 = entry.2 ∧
      entry.2.toList ≠ [] ∧ entry.2.toList.all isWordChar = true ∧
      isNumber entry.2 = false ∧ eqIgnoreAsciiCase entry.2 "IN" = false ∧
      (entry.1 ∉ unnamedTypes → typeCode entry.2 = some entry.1) := by
  decide +kernel

theorem asciiUpper_generic (code : UInt16) :
    (['T', 'Y', 'P', 'E'] ++ displayNat code.toNat).map asciiUpper =
      ['T', 'Y', 'P', 'E'] ++ displayNat code.toNat := by
  have fixed : ∀ digit : Fin 10,
      asciiUpper (Nat.digitChar digit.val) = Nat.digitChar digit.val := by
    decide
  rw [List.map_append]
  congr 1
  refine (List.map_congr_left ?_).trans (List.map_id _)
  intro c member
  obtain ⟨digit, small, rfl⟩ := toDigit_of_mem (by omega) (by omega) code.toNat c member
  exact fixed ⟨digit, small⟩

theorem toAsciiUppercase_generic (code : UInt16) :
    toAsciiUppercase (String.ofList (['T', 'Y', 'P', 'E'] ++ displayNat code.toNat)) =
      String.ofList (['T', 'Y', 'P', 'E'] ++ displayNat code.toNat) := by
  rw [toAsciiUppercase, String.toList_ofList, asciiUpper_generic]

theorem mem_typeNames_of_lookup {code : UInt16} {name : String}
    (found : typeNames.lookup code = some name) : (code, name) ∈ typeNames := by
  obtain ⟨before, after, shape, _⟩ := List.lookup_eq_some_iff.mp found
  rw [shape]
  simp

theorem namesType_typeName (code : UInt16) : NamesType (typeName code) := by
  unfold typeName
  split
  · rename_i name found
    obtain ⟨upper, some, word, notNumber, notClass, _⟩ :=
      namesType_table _ (mem_typeNames_of_lookup found)
    exact ⟨upper, ⟨some, List.all_eq_true.mp word⟩, notNumber, notClass⟩
  · refine ⟨toAsciiUppercase_generic code, wordOf_readable (List.cons_ne_nil _ _) ?_, ?_, ?_⟩
    · intro c member
      rcases List.mem_append.mp member with letter | digit
      · have letters : ∀ c ∈ ['T', 'Y', 'P', 'E'], isWordChar c = true :=
          List.all_eq_true.mp rfl
        exact letters c letter
      · exact isWordChar_displayNat code.toNat c digit
    · rw [isNumber, String.toList_ofList]
      rfl
    · rw [eqIgnoreAsciiCase, toAsciiUppercase_generic, beq_eq_false_iff_ne]
      intro same
      have first := congrArg (fun text => text.toList.head?) same
      rw [String.toList_ofList] at first
      exact absurd (first.symm.trans (List.head?_cons)) (by decide)

theorem typeCodeOfUpper_generic (digits : List Char) :
    typeCodeOfUpper (String.ofList ('T' :: 'Y' :: 'P' :: 'E' :: digits)) =
      (parseUnsigned (2 ^ 16) digits).map UInt16.ofNat := by
  have apart : ∀ name : String, name.toList.take 4 ≠ ['T', 'Y', 'P', 'E'] →
      String.ofList ('T' :: 'Y' :: 'P' :: 'E' :: digits) ≠ name := by
    intro name differs same
    refine differs ?_
    rw [← same, String.toList_ofList]
    rfl
  unfold typeCodeOfUpper
  split
  all_goals first
    | (rename_i same; exact absurd same (apart _ (by decide)))
    | skip
  rw [String.toList_ofList]
  rfl

theorem typeCode_typeName {code : UInt16} (named : code ∉ unnamedTypes) :
    typeCode (typeName code) = some code := by
  unfold typeName
  split
  · rename_i name found
    exact (namesType_table _ (mem_typeNames_of_lookup found)).2.2.2.2.2 named
  · rw [typeCode, toAsciiUppercase_generic]
    change typeCodeOfUpper (String.ofList ('T' :: 'Y' :: 'P' :: 'E' :: displayNat code.toNat)) = _
    rw [typeCodeOfUpper_generic, parseUnsigned_displayNat code.toNat_lt, Option.map_some,
      UInt16.ofNat_toNat]

/-! ## Names -/

/-- The octets that end or split a token or a label: quote, parentheses, dot and
semicolon. -/
def structural : List UInt8 := [34, 40, 41, 46, 59]

/-- Names that can be read after they were displayed. -/
structure LegibleName (name : DnsName) : Prop where
  unmarked : ∀ label ∈ name.labels, ∀ octet ∈ label, octet ∉ structural
  fits : ValidLabels (name.labels.map DnsName.spelled)

def rereadName (name : DnsName) : DnsName :=
  if fits : ValidLabels (name.labels.map DnsName.spelled) then ⟨_, fits⟩ else name

theorem rereadName_labels (legible : LegibleName name) :
    (rereadName name).labels = name.labels.map DnsName.spelled := by
  rw [rereadName, dif_pos legible.fits]

theorem displayOctet_word {octet : UInt8} (plain : octet ∉ structural) :
    ∀ c ∈ DnsName.displayOctet octet, isWordChar c = true := by
  refine DnsName.displayOctet_forall _ (by decide)
    (fun value => isWordChar_digitChar (value % 10) (by omega)) fun low high => ?_
  have value := ofNat_toNat_ascii octet.toNat (by omega)
  refine isWordChar_of_printable (by omega) (by omega) ?_
  rw [value]
  intro mark
  refine plain ?_
  simp only [structural, List.mem_cons, List.not_mem_nil, or_false, ← UInt8.toNat_inj,
    UInt8.reduceToNat] at mark ⊢
  omega

theorem displayChars_word (legible : LegibleName name) :
    ∀ c ∈ name.displayChars, isWordChar c = true :=
  DnsName.displayChars_forall _ (by decide) fun label inside octet among =>
    displayOctet_word (legible.unmarked label inside octet among)

theorem displayChars_ne_nil (name : DnsName) : name.displayChars ≠ [] := by
  intro empty
  have last := name.displayChars_last
  rw [empty] at last
  cases last

theorem displayName_readable (legible : LegibleName name) : (wordOf name.displayChars).Readable :=
  wordOf_readable (displayChars_ne_nil name) (displayChars_word legible)

theorem parseStr_display (legible : LegibleName name) :
    DnsName.parseStr (String.ofList name.displayChars) = .ok (rereadName name) := by
  refine DnsName.parseStr_displayChars ?_ (rereadName_labels legible)
  intro label member dot
  exact legible.unmarked label member 46 dot (by decide)

/-- Text that does not end in a dot is not a displayed name. -/
theorem display_ne {text : String} (ends : text.toList.getLast? ≠ some '.') :
    String.ofList name.displayChars ≠ text := by
  intro same
  rw [← same, String.toList_ofList] at ends
  exact ends name.displayChars_last

theorem resolveName_display (legible : LegibleName name) (origin : DnsName) (line : Nat) :
    resolveName (String.ofList name.displayChars) origin line = .ok (rereadName name) := by
  unfold resolveName
  rw [if_neg (display_ne (by decide)), parseStr_display legible]
  dsimp only
  rw [String.toList_ofList, if_pos name.displayChars_last]

/-! ## Hexadecimal -/

def digitOctet (digit : Nat) : UInt8 := UInt8.ofNat (Nat.digitChar digit).toNat

theorem digitOctet_spec (digit : Nat) (small : digit < 16) :
    String.utf8EncodeChar (Nat.digitChar digit) = [digitOctet digit] ∧
      hexDigit (digitOctet digit) = some digit ∧ digitOctet digit ≠ 43 ∧
      isContinuation (digitOctet digit) = false := by
  have all : ∀ digit : Fin 16,
      String.utf8EncodeChar (Nat.digitChar digit.val) = [digitOctet digit.val] ∧
        hexDigit (digitOctet digit.val) = some digit.val ∧ digitOctet digit.val ≠ 43 ∧
        isContinuation (digitOctet digit.val) = false := by decide
  exact all ⟨digit, small⟩

theorem utf8_hexOctet (octet : UInt8) (rest : List Char) :
    utf8 (hexOctet octet ++ rest) =
      digitOctet (octet.toNat / 16) :: digitOctet (octet.toNat % 16) :: utf8 rest := by
  have bound := octet.toNat_lt
  have high := (digitOctet_spec (octet.toNat / 16) (by omega)).1
  have low := (digitOctet_spec (octet.toNat % 16) (by omega)).1
  simp [utf8, hexOctet, high, low]

theorem utf8_hex_head (data : Bytes) :
    (((utf8 (data.flatMap hexOctet)).head?).map isContinuation).getD false = false := by
  cases data with
  | nil => rfl
  | cons octet rest =>
    have bound := octet.toNat_lt
    rw [List.flatMap_cons, utf8_hexOctet]
    exact (digitOctet_spec (octet.toNat / 16) (by omega)).2.2.2

theorem decodeHexPairs_hex {ε : Type} (data : Bytes) :
    decodeHexPairs (utf8 (data.flatMap hexOctet)) =
      (.ok (some data) : Fallible ε (Option Bytes)) := by
  induction data with
  | nil => rfl
  | cons octet rest ih =>
    have bound := octet.toNat_lt
    obtain ⟨_, high, unsigned, _⟩ := digitOctet_spec (octet.toNat / 16) (by omega)
    obtain ⟨_, low, _, _⟩ := digitOctet_spec (octet.toNat % 16) (by omega)
    have value : UInt8.ofNat (octet.toNat / 16 * 16 + octet.toNat % 16) = octet := by
      rw [Nat.div_add_mod', UInt8.ofNat_toNat]
    rw [List.flatMap_cons, utf8_hexOctet, decodeHexPairs, utf8_hex_head,
      if_neg Bool.false_ne_true, hexPair, low]
    dsimp only
    rw [if_neg unsigned, high, Option.map_some, value, ih]
    rfl

theorem utf8_hex_length (data : Bytes) :
    (utf8 (data.flatMap hexOctet)).length = 2 * data.length := by
  induction data with
  | nil => rfl
  | cons octet rest ih =>
    rw [List.flatMap_cons, utf8_hexOctet, List.length_cons, List.length_cons, ih,
      List.length_cons]
    omega

theorem decodeHex_hex {ε : Type} (data : Bytes) :
    decodeHex (String.ofList (data.flatMap hexOctet)) =
      (.ok (some data) : Fallible ε (Option Bytes)) := by
  unfold decodeHex
  rw [String.toList_ofList]
  dsimp only
  rw [utf8_hex_length, if_neg (by omega), decodeHexPairs_hex]

theorem isWordChar_hex (data : Bytes) : ∀ c ∈ data.flatMap hexOctet, isWordChar c = true := by
  intro c member
  obtain ⟨octet, _, written⟩ := List.mem_flatMap.mp member
  have bound := octet.toNat_lt
  simp only [hexOctet, List.mem_cons, List.not_mem_nil, or_false] at written
  rcases written with rfl | rfl
  · exact isWordChar_digitChar _ (by omega)
  · exact isWordChar_digitChar _ (by omega)

/-! ## Addresses -/

theorem parseIpv4_displayIpv4 (address : Ipv4Addr) :
    parseIpv4 (displayIpv4 address) = some address := by
  have single : ∀ c ∈ displayIpv4 address, (String.utf8EncodeChar c).length = 1 := by
    intro c member
    rcases displayIpv4_chars address c member with rfl | ⟨digit, small, rfl⟩
    · rfl
    · rw [(digitOctet_spec digit (by omega)).1]
      rfl
  have short : (displayIpv4 address).length ≤ 15 := by
    have digits : ∀ octet : UInt8, (displayNat octet.toNat).length ≤ 3 := by
      intro octet
      have bound := octet.toNat_lt
      exact (Nat.length_toDigits_le_iff (by omega) (by omega)).mpr (by omega)
    obtain ⟨octets, four⟩ := address
    obtain ⟨first, second, third, fourth, rfl⟩ := List.length_eq_four.mp four
    have one := digits first
    have two := digits second
    have three := digits third
    have last := digits fourth
    simp only [displayIpv4, List.Vector.toList, List.map_cons, List.map_nil,
      List.intercalate_cons_cons, List.intercalate_singleton, List.length_append,
      List.length_singleton]
    omega
  unfold parseIpv4
  rw [utf8_length_single single, if_neg (by omega), readIpv4_displayIpv4]

theorem isWordChar_address {c : Char}
    (written : c = '.' ∨ c = ':' ∨ ∃ digit, digit < 16 ∧ c = Nat.digitChar digit) :
    isWordChar c = true := by
  rcases written with rfl | rfl | ⟨digit, small, rfl⟩
  · decide
  · decide
  · exact isWordChar_digitChar digit small

theorem displayIpv4_readable (address : Ipv4Addr) : (wordOf (displayIpv4 address)).Readable := by
  refine wordOf_readable ?_ fun c member => ?_
  · intro empty
    have read := readIpv4_displayIpv4 address
    rw [empty] at read
    cases read
  · rcases displayIpv4_chars address c member with dot | ⟨digit, small, written⟩
    · exact isWordChar_address (.inl dot)
    · exact isWordChar_address (.inr (.inr ⟨digit, by omega, written⟩))

theorem displayIpv6_readable (address : Ipv6Addr) : (wordOf (displayIpv6 address)).Readable := by
  refine wordOf_readable ?_ fun c member => isWordChar_address (displayIpv6_chars address c member)
  intro empty
  have read := parseIpv6_displayIpv6 address
  rw [empty] at read
  have none : parseIpv6 [] = none := by decide
  rw [none] at read
  cases read

/-! ## Record data -/

def dataToks : RData → List Tok
  | .a address => [wordOf (displayIpv4 address)]
  | .aaaa address => [wordOf (displayIpv6 address)]
  | .ns target => [wordOf target.displayChars]
  | .cname target => [wordOf target.displayChars]
  | .ptr target => [wordOf target.displayChars]
  | .soa fields =>
    [wordOf fields.mname.displayChars, wordOf fields.rname.displayChars,
      wordOf (displayNat fields.serial.toNat), wordOf (displayNat fields.refresh.toNat),
      wordOf (displayNat fields.retry.toNat), wordOf (displayNat fields.expire.toNat),
      wordOf (displayNat fields.minimum.toNat)]
  | .mx preference exchange => [wordOf (displayNat preference.toNat), wordOf exchange.displayChars]
  | .txt strings => strings.map fun octets => .quoted (String.ofList (Utf8.fromLossy octets))
  | .srv priority weight port target =>
    [wordOf (displayNat priority.toNat), wordOf (displayNat weight.toNat),
      wordOf (displayNat port.toNat), wordOf target.displayChars]
  | .unknown _ data =>
    [wordOf ['\\', '#'], wordOf (displayNat data.length)] ++
      if data.isEmpty then [] else [wordOf (data.flatMap hexOctet)]

/-- The blank that stands before the digits of empty generic data. -/
def dataTail : RData → List Char
  | .unknown _ [] => [' ']
  | _ => []

def dataNames : RData → List DnsName
  | .ns target => [target]
  | .cname target => [target]
  | .ptr target => [target]
  | .soa fields => [fields.mname, fields.rname]
  | .mx _ exchange => [exchange]
  | .srv _ _ _ target => [target]
  | _ => []

/-- Strings that stay between their quotes and short enough once they are text;
the first is not the mark of generic data. -/
structure LegibleStrings (strings : List Bytes) : Prop where
  filled : strings ≠ []
  typed : strings.head?.map Utf8.fromLossy ≠ some ['\\', '#']
  inside : ∀ octets ∈ strings, '"' ∉ Utf8.fromLossy octets ∧ '\n' ∉ Utf8.fromLossy octets
  short : ∀ octets ∈ strings, (utf8 (Utf8.fromLossy octets)).length ≤ 255

/-- Data that can be read after they were written.  The length of a vector fits
`usize`. -/
structure LegibleData (rdata : RData) : Prop where
  names : ∀ name ∈ dataNames rdata, LegibleName name
  strings : ∀ strings, rdata = .txt strings → LegibleStrings strings
  sized : ∀ rtype data, rdata = .unknown rtype data → data.length < 2 ^ 64
  named : rdata.rtype ∉ unnamedTypes

def rereadData : RData → RData
  | .ns target => .ns (rereadName target)
  | .cname target => .cname (rereadName target)
  | .ptr target => .ptr (rereadName target)
  | .soa fields =>
    .soa { fields with mname := rereadName fields.mname, rname := rereadName fields.rname }
  | .mx preference exchange => .mx preference (rereadName exchange)
  | .txt strings => .txt (strings.map fun octets => utf8 (Utf8.fromLossy octets))
  | .srv priority weight port target => .srv priority weight port (rereadName target)
  | other => other

theorem rereadData_rtype (rdata : RData) : (rereadData rdata).rtype = rdata.rtype := by
  cases rdata <;> rfl

theorem escapeQuotes_plain (plain : '"' ∉ text) : escapeQuotes text = text := by
  induction text with
  | nil => rfl
  | cons c rest ih =>
    have here : '"' ≠ c := List.ne_of_not_mem_cons plain
    have later : '"' ∉ rest := List.not_mem_of_not_mem_cons plain
    have others : escapeQuotes rest = rest := ih later
    unfold escapeQuotes at others ⊢
    rw [List.flatMap_cons, if_neg here.symm, others]
    rfl

theorem text_eq_toks (legible : LegibleData rdata) :
    rdata.text = spaced ((dataToks rdata).map Tok.written) ++ dataTail rdata := by
  cases rdata with
  | txt strings =>
    have quoted : strings.map (fun octets =>
        '"' :: escapeQuotes (Utf8.fromLossy octets) ++ ['"']) =
        (dataToks (.txt strings)).map Tok.written := by
      rw [dataToks, List.map_map]
      apply List.map_congr_left
      intro octets member
      have plain := ((legible.strings strings rfl).inside octets member).1
      rw [escapeQuotes_plain plain, Function.comp, Tok.written, String.toList_ofList]
      rfl
    rw [RData.text, quoted]
    exact (List.append_nil _).symm
  | unknown rtype data =>
    cases data with
    | nil => simp [RData.text, dataToks, dataTail, spaced]
    | cons octet rest => simp [RData.text, dataToks, dataTail, spaced]
  | _ => simp [RData.text, dataToks, dataTail, spaced]

theorem dataToks_readable (legible : LegibleData rdata) : ∀ tok ∈ dataToks rdata, tok.Readable := by
  have number := wordOf_displayNat_readable
  cases rdata with
  | a address => simpa [dataToks] using displayIpv4_readable address
  | aaaa address => simpa [dataToks] using displayIpv6_readable address
  | ns target =>
    simpa [dataToks] using displayName_readable (legible.names target (by simp [dataNames]))
  | cname target | ptr target =>
    simpa [dataToks] using displayName_readable (legible.names target (by simp [dataNames]))
  | soa fields =>
    have mname := displayName_readable (legible.names fields.mname (by simp [dataNames]))
    have rname := displayName_readable (legible.names fields.rname (by simp [dataNames]))
    simp [dataToks, mname, rname, number]
  | mx preference exchange =>
    have named := displayName_readable (legible.names exchange (by simp [dataNames]))
    simp [dataToks, named, number]
  | txt strings =>
    intro tok member
    obtain ⟨octets, inside, rfl⟩ := List.mem_map.mp member
    have plain := ((legible.strings strings rfl).inside octets inside).1
    unfold Tok.Readable
    dsimp only
    rwa [String.toList_ofList]
  | srv priority weight port target =>
    have named := displayName_readable (legible.names target (by simp [dataNames]))
    simp [dataToks, named, number]
  | unknown rtype data =>
    have mark : (wordOf ['\\', '#']).Readable :=
      wordOf_readable (by simp) (List.all_eq_true.mp rfl)
    have hex : data ≠ [] → (wordOf (data.flatMap hexOctet)).Readable := by
      intro some
      refine wordOf_readable ?_ (isWordChar_hex data)
      obtain ⟨octet, rest, rfl⟩ := List.exists_cons_of_ne_nil some
      simp [hexOctet]
    intro tok member
    rw [dataToks] at member
    rcases List.mem_append.mp member with front | last
    · simp only [List.mem_cons, List.not_mem_nil, or_false] at front
      rcases front with rfl | rfl
      · exact mark
      · exact number _
    · split at last
      · cases last
      · rename_i filled
        rw [List.mem_singleton.mp last]
        exact hex (by simpa using filled)

theorem dataToks_ne_nil (legible : LegibleData rdata) : dataToks rdata ≠ [] := by
  cases rdata with
  | txt strings =>
    intro empty
    exact (legible.strings strings rfl).filled (List.map_eq_nil_iff.mp empty)
  | _ => simp [dataToks]

/-! ## Reading the data back -/

theorem ofList_ne_generic (plain : '#' ∉ text) : some (String.ofList text) ≠ some "\\#" := by
  intro same
  have chars := congrArg String.toList (Option.some.inj same)
  rw [String.toList_ofList] at chars
  exact plain (by rw [chars]; decide)

theorem hash_ne_digitChar (digit : Nat) (small : digit < 16) : '#' ≠ Nat.digitChar digit := by
  have all : ∀ digit : Fin 16, '#' ≠ Nat.digitChar digit.val := by decide
  exact all ⟨digit, small⟩

theorem displayNat_noHash (value : Nat) : '#' ∉ displayNat value :=
  notMem_toDigits (by omega) (by omega) value (by decide)

theorem display_ne_generic (name : DnsName) :
    some (String.ofList name.displayChars) ≠ some "\\#" := by
  intro same
  exact display_ne (by decide) (Option.some.inj same)

theorem dataToks_typed (legible : LegibleData rdata)
    (typed : ∀ rtype data, rdata ≠ .unknown rtype data) :
    ¬ (dataToks rdata).head?.map Tok.text = some "\\#" := by
  cases rdata with
  | a address =>
    refine ofList_ne_generic fun member => ?_
    rcases displayIpv4_chars address _ member with dot | ⟨digit, small, written⟩
    · exact absurd dot (by decide)
    · exact hash_ne_digitChar digit (by omega) written
  | aaaa address =>
    refine ofList_ne_generic fun member => ?_
    rcases displayIpv6_chars address _ member with dot | colon | ⟨digit, small, written⟩
    · exact absurd dot (by decide)
    · exact absurd colon (by decide)
    · exact hash_ne_digitChar digit small written
  | ns target => exact display_ne_generic target
  | cname target => exact display_ne_generic target
  | ptr target => exact display_ne_generic target
  | soa fields => exact display_ne_generic fields.mname
  | mx preference exchange => exact ofList_ne_generic (displayNat_noHash _)
  | txt strings =>
    intro same
    have first := (legible.strings strings rfl).typed
    cases strings with
    | nil => cases same
    | cons octets rest =>
      have text : String.ofList (Utf8.fromLossy octets) = "\\#" := Option.some.inj same
      have chars := congrArg String.toList text
      rw [String.toList_ofList] at chars
      exact first (congrArg some chars)
  | srv priority weight port target => exact ofList_ne_generic (displayNat_noHash _)
  | unknown rtype data => exact absurd rfl (typed rtype data)

theorem parseTxt_strings (line : Nat) (strings : List Bytes)
    (short : ∀ octets ∈ strings, (utf8 (Utf8.fromLossy octets)).length ≤ 255) :
    parseTxt line (dataToks (.txt strings)) =
      .ok (strings.map fun octets => utf8 (Utf8.fromLossy octets)) := by
  induction strings with
  | nil => rfl
  | cons octets rest ih =>
    obtain ⟨here, later⟩ := List.forall_mem_cons.mp short
    have others := ih later
    rw [dataToks] at others ⊢
    rw [List.map_cons, parseTxt]
    simp only [Tok.text, String.toList_ofList]
    rw [if_neg (by omega), others]
    rfl

theorem parseGeneric_unknown {rtype : UInt16} {data : Bytes} (named : rtype ∉ unnamedTypes)
    (sized : data.length < 2 ^ 64) (line : Nat) :
    parseGeneric (typeName rtype) (dataToks (.unknown rtype data)) line =
      .ok (.unknown rtype data) := by
  have joined : String.join ((if data.isEmpty then ([] : List Tok)
      else [wordOf (data.flatMap hexOctet)]).map Tok.text) =
        String.ofList (data.flatMap hexOctet) := by
    cases data with
    | nil => rfl
    | cons octet rest => simp [String.join]
  unfold parseGeneric
  rw [typeCode_typeName named, dataToks]
  simp only [List.cons_append, List.nil_append, wordOf_text, parseNum_displayNat sized, joined,
    decodeHex_hex, bind, Except.bind, ne_eq, not_true_eq_false, if_false, pure, Except.pure]

theorem parseRdata_dataToks (legible : LegibleData rdata) (origin : DnsName) (line : Nat) :
    parseRdata (typeName rdata.rtype) (dataToks rdata) origin line = .ok (rereadData rdata) := by
  have resolved : ∀ name ∈ dataNames rdata,
      resolveName (String.ofList name.displayChars) origin line = .ok (rereadName name) :=
    fun name member => resolveName_display (legible.names name member) origin line
  have typed : (∀ rtype data, rdata ≠ .unknown rtype data) →
      parseRdata (typeName rdata.rtype) (dataToks rdata) origin line =
        parsePresentation (typeName rdata.rtype) (dataToks rdata) origin line :=
    fun typed => if_neg (dataToks_typed legible typed)
  cases rdata with
  | a address =>
    rw [typed (by simp)]
    change parsePresentation "A" _ origin line = _
    unfold parsePresentation
    simp [dataToks, parseIpv4_displayIpv4, rereadData]
  | aaaa address =>
    rw [typed (by simp)]
    change parsePresentation "AAAA" _ origin line = _
    unfold parsePresentation
    simp [dataToks, parseIpv6_displayIpv6, rereadData]
  | ns target =>
    rw [typed (by simp)]
    change parsePresentation "NS" _ origin line = _
    unfold parsePresentation
    simp [dataToks, resolved target (by simp [dataNames]), rereadData, bind,
      Except.bind, pure, Except.pure]
  | cname target =>
    rw [typed (by simp)]
    change parsePresentation "CNAME" _ origin line = _
    unfold parsePresentation
    simp [dataToks, resolved target (by simp [dataNames]), rereadData, bind,
      Except.bind, pure, Except.pure]
  | ptr target =>
    rw [typed (by simp)]
    change parsePresentation "PTR" _ origin line = _
    unfold parsePresentation
    simp [dataToks, resolved target (by simp [dataNames]), rereadData, bind,
      Except.bind, pure, Except.pure]
  | soa fields =>
    rw [typed (by simp)]
    change parsePresentation "SOA" _ origin line = _
    unfold parsePresentation
    simp [dataToks, resolved fields.mname (by simp [dataNames]),
      resolved fields.rname (by simp [dataNames]), parseU32_displayNat, rereadData, bind,
      Except.bind, pure, Except.pure]
  | mx preference exchange =>
    rw [typed (by simp)]
    change parsePresentation "MX" _ origin line = _
    unfold parsePresentation
    simp [dataToks, resolved exchange (by simp [dataNames]),
      parseU16_displayNat, rereadData, bind, Except.bind, pure, Except.pure]
  | txt strings =>
    have legibleStrings := legible.strings strings rfl
    have filled : (dataToks (.txt strings)).isEmpty = false := by
      simpa using dataToks_ne_nil legible
    rw [typed (by simp)]
    change parsePresentation "TXT" _ origin line = _
    unfold parsePresentation
    simp [filled, parseTxt_strings line strings legibleStrings.short, rereadData,
      bind, Except.bind, pure, Except.pure]
  | srv priority weight port target =>
    rw [typed (by simp)]
    change parsePresentation "SRV" _ origin line = _
    unfold parsePresentation
    simp [dataToks, resolved target (by simp [dataNames]),
      parseU16_displayNat, rereadData, bind, Except.bind, pure, Except.pure]
  | unknown rtype data =>
    have generic : parseRdata (typeName rtype) (dataToks (.unknown rtype data)) origin line =
        parseGeneric (typeName rtype) (dataToks (.unknown rtype data)) line := if_pos rfl
    exact generic.trans
      (parseGeneric_unknown legible.named (legible.sized rtype data rfl) line)

end Rdns.Zones
