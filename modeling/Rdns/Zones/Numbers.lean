import Rdns.Zones.Text
import Mathlib.Data.Nat.Digits.Defs

/-!
# Numbers and addresses as text

`Display` of the integers and IP addresses of the standard library, next to the
`FromStr` of `Zones.Text`, and that the second reads back what the first writes.
-/

set_option autoImplicit false

namespace Rdns.Zones

open Rdns.Lib Rdns.Proto

variable {rest text : List Char} {slots : Nat}

def displayNat (value : Nat) : List Char := Nat.toDigits 10 value

/-- `{:x}`. -/
def lowerHex (value : Nat) : List Char := Nat.toDigits 16 value

def displayIpv4 (address : Ipv4Addr) : List Char :=
  ['.'].intercalate (address.toList.map fun octet => displayNat octet.toNat)

def segments : Bytes → List UInt16
  | high :: low :: rest => ofBe16 high low :: segments rest
  | _ => []

structure Span where
  start : Nat
  len : Nat

/-- The longest run of zero segments, the first of them where several are. -/
def zeroesLoop : Nat → List UInt16 → Span → Span → Span
  | _, [], longest, _ => longest
  | i, segment :: rest, longest, current =>
    if segment = 0 then
      let current := ⟨if current.len = 0 then i else current.start, current.len + 1⟩
      zeroesLoop (i + 1) rest (if current.len > longest.len then current else longest) current
    else zeroesLoop (i + 1) rest longest ⟨0, 0⟩

def zeroes (segments : List UInt16) : Span := zeroesLoop 0 segments ⟨0, 0⟩ ⟨0, 0⟩

def fmtSubslice (chunk : List UInt16) : List Char :=
  [':'].intercalate (chunk.map fun segment => lowerHex segment.toNat)

def mappedPrefix : Bytes := List.replicate 10 0 ++ [0xFF, 0xFF]

/-- `to_ipv4_mapped`. -/
def toIpv4Mapped (address : Ipv6Addr) : Option Ipv4Addr :=
  if address.toList.take 12 = mappedPrefix then some ⟨address.toList.drop 12, by simp⟩ else none

def displayIpv6 (address : Ipv6Addr) : List Char :=
  match toIpv4Mapped address with
  | some mapped => [':', ':', 'f', 'f', 'f', 'f', ':'] ++ displayIpv4 mapped
  | none =>
    let all := segments address.toList
    let span := zeroes all
    if span.len > 1 then
      fmtSubslice (all.take span.start) ++ [':', ':'] ++
        fmtSubslice (all.drop (span.start + span.len))
    else fmtSubslice all

/-! ## Digits -/

theorem digitValue_digitChar (digit : Nat) (small : digit < 16) :
    digitValue (Nat.digitChar digit) = some digit := by
  have all : ∀ digit : Fin 16, digitValue (Nat.digitChar digit.val) = some digit.val := by decide
  exact all ⟨digit, small⟩

theorem toDigit_digitChar {radix digit : Nat} (base : radix ≤ 16) (small : digit < radix) :
    toDigit radix (Nat.digitChar digit) = some digit := by
  rw [toDigit, digitValue_digitChar digit (by omega), Option.filter_some]
  simp [small]

theorem digitsValue_concat (radix : Nat) (digits : List Char) (last : Char) :
    digitsValue radix (digits ++ [last]) =
      digitsValue radix digits * radix + (toDigit radix last).getD 0 := by
  simp [digitsValue, List.foldl_append]

section Digits

variable {radix : Nat} (least : 1 < radix) (base : radix ≤ 16)

include least base

theorem digitsValue_toDigits (value : Nat) :
    digitsValue radix (Nat.toDigits radix value) = value := by
  induction value using Nat.strongRecOn with
  | ind value ih =>
    by_cases small : value < radix
    · rw [Nat.toDigits_of_lt_base small, ← List.nil_append [Nat.digitChar value],
        digitsValue_concat, toDigit_digitChar base small]
      simp [digitsValue]
    · have shorter : value / radix < value := Nat.div_lt_self (by omega) least
      rw [Nat.toDigits_of_base_le least (by omega), digitsValue_concat, ih _ shorter,
        toDigit_digitChar base (Nat.mod_lt _ (by omega)), Option.getD_some]
      exact Nat.div_add_mod' value radix

theorem toDigit_of_mem (value : Nat) :
    ∀ c ∈ Nat.toDigits radix value, ∃ digit, digit < radix ∧ c = Nat.digitChar digit := by
  induction value using Nat.strongRecOn with
  | ind value ih =>
    intro c member
    by_cases small : value < radix
    · rw [Nat.toDigits_of_lt_base small] at member
      exact ⟨value, small, List.mem_singleton.mp member⟩
    · rw [Nat.toDigits_of_base_le least (by omega)] at member
      rcases List.mem_append.mp member with earlier | last
      · exact ih _ (Nat.div_lt_self (by omega) least) c earlier
      · exact ⟨value % radix, Nat.mod_lt _ (by omega), List.mem_singleton.mp last⟩

theorem isDigit_of_mem (value : Nat) :
    ∀ c ∈ Nat.toDigits radix value, (toDigit radix c).isSome = true := by
  intro c member
  obtain ⟨digit, small, rfl⟩ := toDigit_of_mem least base value c member
  rw [toDigit_digitChar base small]
  rfl

theorem notMem_toDigits (value : Nat) {c : Char} (other : digitValue c = none) :
    c ∉ Nat.toDigits radix value := by
  intro member
  obtain ⟨digit, small, rfl⟩ := toDigit_of_mem least base value c member
  rw [digitValue_digitChar digit (by omega)] at other
  cases other

/-- `read_number` takes exactly the digits written, where none follows. -/
theorem readNumber_toDigits {maxDigits limit value : Nat} (padding : Bool)
    (fits : (Nat.toDigits radix value).length ≤ maxDigits) (bounded : value < limit)
    (ends : ∀ c ∈ rest.head?, toDigit radix c = none)
    (plain : padding = true ∨ value = 0 ∨ (Nat.toDigits radix value).head? ≠ some '0') :
    readNumber radix maxDigits padding limit (Nat.toDigits radix value ++ rest) =
      some (value, rest) := by
  have taken : (Nat.toDigits radix value ++ rest).takeWhile (fun c => (toDigit radix c).isSome) =
      Nat.toDigits radix value := by
    rw [List.takeWhile_append_of_pos (isDigit_of_mem least base value)]
    cases rest with
    | nil => exact List.append_nil _
    | cons c rest =>
      rw [List.takeWhile_cons_of_neg (by rw [ends c rfl]; exact Bool.false_ne_true),
        List.append_nil]
  have filled : (Nat.toDigits radix value).isEmpty = false := by
    simp [Nat.toDigits_ne_nil]
  have unpadded : (!padding && (Nat.toDigits radix value).head? == some '0' &&
      decide (1 < (Nat.toDigits radix value).length)) = false := by
    rcases plain with allowed | zero | nonzero
    · rw [allowed]
      rfl
    · rw [zero, Nat.toDigits_of_lt_base (by omega)]
      simp
    · rw [beq_eq_false_iff_ne.mpr nonzero, Bool.and_false, Bool.false_and]
  unfold readNumber
  dsimp only
  rw [taken, filled, unpadded, digitsValue_toDigits least base]
  simp [fits, bounded]

end Digits

theorem head_toDigits_ne_zero {value : Nat} (positive : value ≠ 0) :
    (Nat.toDigits 10 value).head? ≠ some '0' := by
  induction value using Nat.strongRecOn with
  | ind value ih =>
    by_cases small : value < 10
    · rw [Nat.toDigits_of_lt_base small]
      have all : ∀ digit : Fin 10, digit.val ≠ 0 → [Nat.digitChar digit.val].head? ≠ some '0' := by
        decide
      exact all ⟨value, small⟩ positive
    · rw [Nat.toDigits_of_base_le (by omega) (by omega),
        List.head?_append_of_ne_nil _ Nat.toDigits_ne_nil]
      exact ih _ (by omega) (by omega)

theorem parseUnsigned_displayNat {limit value : Nat} (bounded : value < limit) :
    parseUnsigned limit (displayNat value) = some value := by
  have digits := @isDigit_of_mem 10 (by omega) (by omega) value
  have unsigned : '+' ∉ displayNat value :=
    notMem_toDigits (by omega) (by omega) value (by decide)
  have filled : (displayNat value).isEmpty = false := by
    simp [displayNat, Nat.toDigits_ne_nil]
  have all : (displayNat value).all (fun c => (toDigit 10 c).isSome) = true :=
    List.all_eq_true.mpr digits
  have value_eq : digitsValue 10 (displayNat value) = value :=
    digitsValue_toDigits (by omega) (by omega) value
  unfold parseUnsigned
  split
  · rename_i rest shape
    rw [shape] at unsigned
    exact absurd List.mem_cons_self unsigned
  · dsimp only
    rw [filled, all, value_eq]
    simp [bounded]

theorem mem_of_mem_intercalate {separator c : Char} {pieces : List (List Char)}
    (member : c ∈ [separator].intercalate pieces) :
    c = separator ∨ ∃ piece ∈ pieces, c ∈ piece := by
  induction pieces with
  | nil => cases member
  | cons piece rest ih =>
    cases rest with
    | nil =>
      rw [List.intercalate_singleton] at member
      exact .inr ⟨piece, List.mem_cons_self, member⟩
    | cons next rest =>
      rw [List.intercalate_cons_cons, List.append_assoc] at member
      rcases List.mem_append.mp member with here | later
      · exact .inr ⟨piece, List.mem_cons_self, here⟩
      · rcases List.mem_cons.mp later with sep | later
        · exact .inl sep
        · rcases ih later with sep | ⟨other, among, inside⟩
          · exact .inl sep
          · exact .inr ⟨other, List.mem_cons_of_mem _ among, inside⟩

/-! ## IPv4 -/

theorem readOctet_displayNat (octet : UInt8) (ends : ∀ c ∈ rest.head?, toDigit 10 c = none) :
    readOctet (displayNat octet.toNat ++ rest) = some (octet, rest) := by
  have small := octet.toNat_lt
  have short : (Nat.toDigits 10 octet.toNat).length ≤ 3 :=
    (Nat.length_toDigits_le_iff (by omega) (by omega)).mpr (by omega)
  have unpadded : false = true ∨ octet.toNat = 0 ∨
      (Nat.toDigits 10 octet.toNat).head? ≠ some '0' := by
    by_cases zero : octet.toNat = 0
    · exact .inr (.inl zero)
    · exact .inr (.inr (head_toDigits_ne_zero zero))
  rw [readOctet, displayNat,
    readNumber_toDigits (by omega) (by omega) false short small ends unpadded]
  simp

theorem readIpv4_displayIpv4 (address : Ipv4Addr) :
    readIpv4 (displayIpv4 address) = some (address, []) := by
  obtain ⟨octets, four⟩ := address
  obtain ⟨first, second, third, fourth, rfl⟩ := List.length_eq_four.mp four
  have dot : ∀ rest : List Char, ∀ c ∈ ('.' :: rest).head?, toDigit 10 c = none := by
    intro rest c member
    cases member
    decide
  have shape : displayIpv4 ⟨[first, second, third, fourth], four⟩ =
      displayNat first.toNat ++ '.' :: (displayNat second.toNat ++ '.' ::
        (displayNat third.toNat ++ '.' :: (displayNat fourth.toNat ++ []))) := by
    simp [displayIpv4, List.Vector.toList, List.intercalate]
  unfold readIpv4
  rw [shape, readOctet_displayNat first (dot _)]
  simp only [readGivenChar, if_true, readOctet_displayNat second (dot _),
    readOctet_displayNat third (dot _), Option.bind_eq_bind, Option.bind_some]
  rw [readOctet_displayNat fourth (by simp)]
  rfl

theorem displayIpv4_chars (address : Ipv4Addr) :
    ∀ c ∈ displayIpv4 address, c = '.' ∨ ∃ digit, digit < 10 ∧ c = Nat.digitChar digit := by
  intro c member
  rcases mem_of_mem_intercalate member with separator | ⟨piece, written, inside⟩
  · exact .inl separator
  · obtain ⟨octet, _, rfl⟩ := List.mem_map.mp written
    exact .inr (toDigit_of_mem (by omega) (by omega) octet.toNat c inside)

/-! ## IPv6 -/

theorem readGivenChar_eq_some {wanted : Char} (read : readGivenChar wanted text = some rest) :
    text = wanted :: rest := by
  cases text with
  | nil => cases read
  | cons c tail =>
    rw [readGivenChar] at read
    split at read
    · rename_i same
      cases read
      rw [same]
    · cases read

theorem readOctet_suffix {octet : UInt8} (read : readOctet text = some (octet, rest)) :
    rest <:+ text := by
  obtain ⟨⟨value, after⟩, number, same⟩ := Option.map_eq_some_iff.mp read
  cases same
  unfold readNumber at number
  dsimp only at number
  split_ifs at number
  cases number
  exact List.drop_suffix _ _

theorem readIpv4_of_noDot (plain : '.' ∉ text) : readIpv4 text = none := by
  unfold readIpv4
  cases octet : readOctet text with
  | none => rfl
  | some read =>
    cases dotted : readGivenChar '.' read.2 with
    | none => simp [dotted]
    | some rest =>
      have inside : '.' ∈ read.2 := by
        rw [readGivenChar_eq_some dotted]
        exact List.mem_cons_self
      exact absurd ((readOctet_suffix octet).mem inside) plain

theorem readGroup_lowerHex (group : UInt16) (ends : ∀ c ∈ rest.head?, c = ':') :
    readNumber 16 4 true (2 ^ 16) (lowerHex group.toNat ++ rest) = some (group.toNat, rest) := by
  have small := group.toNat_lt
  have short : (Nat.toDigits 16 group.toNat).length ≤ 4 :=
    (Nat.length_toDigits_le_iff (by omega) (by omega)).mpr (by omega)
  refine readNumber_toDigits (by omega) (by omega) true short small ?_ (.inl rfl)
  intro c member
  rw [ends c member]
  decide

theorem readIpv4_lowerHex (value : Nat) (rest : List Char) (plain : '.' ∉ rest) :
    readIpv4 (lowerHex value ++ rest) = none := by
  refine readIpv4_of_noDot fun member => ?_
  rcases List.mem_append.mp member with inside | after
  · exact notMem_toDigits (by omega) (by omega) value (by decide) inside
  · exact plain after

def followingGroups (groups : List UInt16) : List Char :=
  groups.flatMap fun group => ':' :: lowerHex group.toNat

theorem fmtSubslice_cons (group : UInt16) (rest : List UInt16) :
    fmtSubslice (group :: rest) = lowerHex group.toNat ++ followingGroups rest := by
  induction rest generalizing group with
  | nil => simp [fmtSubslice, followingGroups, List.intercalate_singleton]
  | cons next rest ih =>
    have later := ih next
    unfold fmtSubslice at later ⊢
    rw [List.map_cons, List.map_cons, List.intercalate_cons_cons]
    rw [List.map_cons] at later
    rw [later]
    simp [followingGroups]

theorem followingGroups_noDot (groups : List UInt16) : '.' ∉ followingGroups groups := by
  intro member
  obtain ⟨group, _, inside⟩ := List.mem_flatMap.mp member
  rcases List.mem_cons.mp inside with colon | digit
  · exact absurd colon (by decide)
  · exact notMem_toDigits (by omega) (by omega) group.toNat (by decide) digit

theorem followingGroups_head (groups : List UInt16) {stop : List Char}
    (ends : ∀ c ∈ stop.head?, c = ':') : ∀ c ∈ (followingGroups groups ++ stop).head?, c = ':' := by
  cases groups with
  | nil => exact ends
  | cons group rest =>
    intro c member
    cases member
    rfl

/-- Where the reading of groups ends: at the end of the text or before `::`. -/
def Stops (stop : List Char) : Prop := stop = [] ∨ ∃ rest, stop = ':' :: ':' :: rest

theorem Stops.head {stop : List Char} (stops : Stops stop) : ∀ c ∈ stop.head?, c = ':' := by
  intro c member
  rcases stops with rfl | ⟨rest, rfl⟩
  · cases member
  · cases member
    rfl

theorem readNumber_none {c : Char} (other : digitValue c = none) (radix maxDigits : Nat)
    (padding : Bool) (limit : Nat) (rest : List Char) :
    readNumber radix maxDigits padding limit (c :: rest) = none := by
  have notDigit : (toDigit radix c).isSome = false := by
    rw [toDigit, other]
    rfl
  simp [readNumber, notDigit]

theorem readIpv4_colon (rest : List Char) : readIpv4 (':' :: rest) = none := by
  unfold readIpv4 readOctet
  rw [readNumber_none (by decide)]
  rfl

theorem readGroups_stop (first : Bool) {stop : List Char} (stops : Stops stop) :
    readGroups slots first stop = ([], false, stop) := by
  cases slots with
  | zero => rfl
  | succ slots =>
    unfold readGroups
    dsimp only
    rcases stops with rfl | ⟨rest, rfl⟩
    · have noAddress : readIpv4 [] = none := rfl
      have noGroup : readNumber 16 4 true (2 ^ 16) [] = none := rfl
      cases first with
      | true =>
        rw [if_pos rfl, Option.bind_some, Option.bind_some, noAddress, ite_self, noGroup]
      | false =>
        rw [if_neg Bool.false_ne_true, readGivenChar, Option.bind_none, Option.bind_none,
          ite_self]
    · cases first with
      | true =>
        rw [if_pos rfl, Option.bind_some, Option.bind_some, readIpv4_colon, ite_self,
          readNumber_none (by decide)]
      | false =>
        rw [if_neg Bool.false_ne_true, readGivenChar, if_pos rfl, Option.bind_some,
          Option.bind_some, readIpv4_colon, ite_self, readNumber_none (by decide)]

theorem readGroups_group {first : Bool} {after : List Char} (group : UInt16)
    (start : (if first then some text else readGivenChar ':' text) =
      some (lowerHex group.toNat ++ after))
    (noAddress : readIpv4 (lowerHex group.toNat ++ after) = none)
    (ends : ∀ c ∈ after.head?, c = ':') :
    readGroups (slots + 1) first text =
      (group :: (readGroups slots false after).1, (readGroups slots false after).2) := by
  rw [readGroups]
  dsimp only
  rw [start]
  simp only [Option.bind_some, noAddress, ite_self, readGroup_lowerHex group ends,
    UInt16.ofNat_toNat]

section Groups

variable {stop : List Char} (stops : Stops stop) (plain : '.' ∉ stop)

include plain in
theorem readIpv4_groups (group : UInt16) (rest : List UInt16) :
    readIpv4 (lowerHex group.toNat ++ (followingGroups rest ++ stop)) = none := by
  refine readIpv4_lowerHex _ _ fun member => ?_
  rcases List.mem_append.mp member with inside | after
  · exact followingGroups_noDot rest inside
  · exact plain after

include stops plain

theorem readGroups_following (groups : List UInt16) :
    ∀ slots, groups.length ≤ slots →
      readGroups slots false (followingGroups groups ++ stop) = (groups, false, stop) := by
  induction groups with
  | nil =>
    intro slots _
    exact readGroups_stop false stops
  | cons group rest ih =>
    intro slots enough
    rw [List.length_cons] at enough
    obtain ⟨slots, rfl⟩ : ∃ less, slots = less + 1 := ⟨slots - 1, by omega⟩
    have start : (if false = true then some (followingGroups (group :: rest) ++ stop)
        else readGivenChar ':' (followingGroups (group :: rest) ++ stop)) =
          some (lowerHex group.toNat ++ (followingGroups rest ++ stop)) := by
      simp [followingGroups, readGivenChar]
    rw [readGroups_group group start (readIpv4_groups plain group rest)
      (followingGroups_head rest stops.head), ih slots (by omega)]

theorem readGroups_fmtSubslice (groups : List UInt16) (enough : groups.length ≤ slots) :
    readGroups slots true (fmtSubslice groups ++ stop) = (groups, false, stop) := by
  cases groups with
  | nil => exact readGroups_stop true stops
  | cons group rest =>
    rw [List.length_cons] at enough
    obtain ⟨slots, rfl⟩ : ∃ less, slots = less + 1 := ⟨slots - 1, by omega⟩
    have start : (if true = true then some (fmtSubslice (group :: rest) ++ stop)
        else readGivenChar ':' (fmtSubslice (group :: rest) ++ stop)) =
          some (lowerHex group.toNat ++ (followingGroups rest ++ stop)) := by
      rw [if_pos rfl, fmtSubslice_cons, List.append_assoc]
    rw [readGroups_group group start (readIpv4_groups plain group rest)
      (followingGroups_head rest stops.head), readGroups_following stops plain rest slots
        (by omega)]

end Groups

theorem fmtSubslice_noDot (groups : List UInt16) : '.' ∉ fmtSubslice groups := by
  cases groups with
  | nil => exact List.not_mem_nil
  | cons group rest =>
    rw [fmtSubslice_cons]
    intro member
    rcases List.mem_append.mp member with digit | later
    · exact notMem_toDigits (by omega) (by omega) group.toNat (by decide) digit
    · exact followingGroups_noDot rest later

def ZeroSpan (all : List UInt16) (span : Span) : Prop :=
  ∀ k, span.start ≤ k → k < span.start + span.len → all[k]? = some 0

theorem zeroesLoop_spec (all : List UInt16) :
    ∀ (rest : List UInt16) (i : Nat) (longest current : Span), all.drop i = rest →
      ZeroSpan all longest → ZeroSpan all current →
      (current.len ≠ 0 → current.start + current.len = i) →
      ZeroSpan all (zeroesLoop i rest longest current) := by
  intro rest
  induction rest with
  | nil =>
    intro i longest current _ kept _ _
    exact kept
  | cons segment rest ih =>
    intro i longest current remaining kept running adjacent
    have here : all[i]? = some segment := by
      have first : (all.drop i)[0]? = all[i + 0]? := List.getElem?_drop
      rw [remaining] at first
      exact first.symm
    have later : all.drop (i + 1) = rest := by
      rw [← List.drop_drop, remaining]
      rfl
    rw [zeroesLoop]
    by_cases zero : segment = 0
    · rw [if_pos zero]
      dsimp only
      have extended : ZeroSpan all
          ⟨if current.len = 0 then i else current.start, current.len + 1⟩ := by
        intro k above below
        dsimp only at above below
        by_cases last : k = i
        · rw [last, here, zero]
        · by_cases fresh : current.len = 0
          · rw [if_pos fresh] at above below
            omega
          · rw [if_neg fresh] at above below
            have ended := adjacent fresh
            exact running k above (by omega)
      refine ih (i + 1) _ _ later ?_ extended ?_
      · split
        · exact extended
        · exact kept
      · intro _
        dsimp only
        by_cases fresh : current.len = 0
        · rw [if_pos fresh]
          omega
        · rw [if_neg fresh]
          have ended := adjacent fresh
          omega
    · rw [if_neg zero]
      refine ih (i + 1) _ _ later kept ?_ (fun absurd => (absurd rfl).elim)
      intro k _ below
      exact absurd below (by dsimp only; omega)

theorem zeroes_split (all : List UInt16) (wide : (zeroes all).len > 1) :
    (zeroes all).start + (zeroes all).len ≤ all.length ∧
      all.take (zeroes all).start ++ List.replicate (zeroes all).len 0 ++
        all.drop ((zeroes all).start + (zeroes all).len) = all := by
  have empty : ZeroSpan all ⟨0, 0⟩ := fun k _ below => absurd below (by dsimp only; omega)
  have span : ZeroSpan all (zeroes all) :=
    zeroesLoop_spec all all 0 ⟨0, 0⟩ ⟨0, 0⟩ rfl empty empty fun absurd => (absurd rfl).elim
  generalize zeroes all = found at wide span ⊢
  have inside : found.start + found.len ≤ all.length := by
    have last := span (found.start + found.len - 1) (by omega) (by omega)
    have bound := (List.getElem?_eq_some_iff.mp last).1
    omega
  have zeros : (all.drop found.start).take found.len = List.replicate found.len 0 := by
    refine List.eq_replicate_iff.mpr ⟨by simp; omega, fun value member => ?_⟩
    obtain ⟨k, below, rfl⟩ := List.mem_iff_getElem.mp member
    have short : k < found.len := by
      rw [List.length_take] at below
      omega
    have zero := span (found.start + k) (by omega) (by omega)
    rw [List.getElem_take, List.getElem_drop]
    exact (List.getElem?_eq_some_iff.mp zero).2
  refine ⟨inside, ?_⟩
  rw [← zeros, List.append_assoc, ← List.drop_drop, List.take_append_drop, List.take_append_drop]

theorem segments_length : ∀ octets : Bytes, (segments octets).length = octets.length / 2
  | [] => rfl
  | [_] => by simp [segments]
  | _ :: _ :: rest => by
    rw [segments, List.length_cons, segments_length rest, List.length_cons, List.length_cons]
    omega

theorem segments_toBe16 : ∀ octets : Bytes, octets.length % 2 = 0 →
    (segments octets).flatMap toBe16 = octets
  | [], _ => rfl
  | [_], odd => by simp at odd
  | high :: low :: rest, even => by
    have shorter : rest.length % 2 = 0 := by
      rw [List.length_cons, List.length_cons] at even
      omega
    rw [segments, List.flatMap_cons, toBe16_ofBe16, segments_toBe16 rest shorter]
    rfl

theorem ipv6OfGroups_segments (address : Ipv6Addr) :
    ipv6OfGroups (segments address.toList) = address := by
  obtain ⟨octets, sixteen⟩ := address
  apply Subtype.ext
  change (((segments octets).flatMap toBe16) ++ List.replicate 16 0).take 16 = octets
  rw [segments_toBe16 octets (by omega), List.take_append_of_le_length (by omega),
    List.take_of_length_le (by omega)]

/-- The form with `::` that is not a mapped IPv4 address. -/
theorem readIpv6_compressed (head tail : List UInt16) (count : Nat) (wide : 1 < count)
    (eight : head.length + count + tail.length = 8) :
    readIpv6 (fmtSubslice head ++ [':', ':'] ++ fmtSubslice tail) =
      some (ipv6OfGroups (head ++ List.replicate count 0 ++ tail), []) := by
  have plain : '.' ∉ ':' :: ':' :: fmtSubslice tail := by
    simp [fmtSubslice_noDot]
  have first : readGroups 8 true (fmtSubslice head ++ ':' :: ':' :: fmtSubslice tail) = _ :=
    readGroups_fmtSubslice (.inr ⟨_, rfl⟩) plain head (by omega)
  have second : readGroups (7 - head.length) true (fmtSubslice tail ++ []) = _ :=
    readGroups_fmtSubslice (.inl rfl) List.not_mem_nil tail (by omega)
  rw [List.append_nil] at second
  have zeros : 8 - head.length - tail.length = count := by omega
  rw [List.append_assoc]
  change readIpv6 (fmtSubslice head ++ ':' :: ':' :: fmtSubslice tail) = _
  unfold readIpv6
  rw [first]
  dsimp only
  rw [if_neg (by omega), if_neg Bool.false_ne_true]
  simp only [readGivenChar, if_true, Option.bind_eq_bind, Option.bind_some, second, zeros]
  rfl

theorem readIpv6_full (groups : List UInt16) (eight : groups.length = 8) :
    readIpv6 (fmtSubslice groups) = some (ipv6OfGroups groups, []) := by
  have all : readGroups 8 true (fmtSubslice groups ++ []) = _ :=
    readGroups_fmtSubslice (.inl rfl) List.not_mem_nil groups (by omega)
  rw [List.append_nil] at all
  unfold readIpv6
  rw [all]
  dsimp only
  rw [if_pos eight]

theorem readGroups_dotted (room : 0 < slots) (mapped : Ipv4Addr) :
    readGroups (slots + 1) false (':' :: displayIpv4 mapped) =
      (segments mapped.toList, true, []) := by
  have dotted := readIpv4_displayIpv4 mapped
  obtain ⟨octets, four⟩ := mapped
  obtain ⟨first, second, third, fourth, rfl⟩ := List.length_eq_four.mp four
  rw [readGroups]
  dsimp only
  rw [if_neg Bool.false_ne_true, if_pos room, readGivenChar, if_pos rfl, Option.bind_some, dotted]
  rfl

/-- A mapped address: `::ffff:` in front of the dotted form. -/
theorem readIpv6_mapped (mapped : Ipv4Addr) :
    readIpv6 ([':', ':', 'f', 'f', 'f', 'f', ':'] ++ displayIpv4 mapped) =
      some (ipv6OfGroups (List.replicate 5 0 ++ 0xFFFF :: segments mapped.toList), []) := by
  have letters : lowerHex (0xFFFF : UInt16).toNat = ['f', 'f', 'f', 'f'] := by decide
  have two : (segments mapped.toList).length = 2 := by
    rw [segments_length, List.Vector.toList_length]
  have noAddress : readIpv4 (lowerHex (0xFFFF : UInt16).toNat ++ ':' :: displayIpv4 mapped) =
      none := by
    have notDigit : (toDigit 10 'f').isSome = false := by decide
    rw [letters]
    simp [readIpv4, readOctet, readNumber, notDigit]
  have tail : readGroups 7 true (lowerHex (0xFFFF : UInt16).toNat ++ ':' :: displayIpv4 mapped) =
      _ := readGroups_group 0xFFFF rfl noAddress (by intro c member; cases member; rfl)
  rw [readGroups_dotted (by decide), letters] at tail
  change readIpv6 (':' :: ':' :: (['f', 'f', 'f', 'f'] ++ ':' :: displayIpv4 mapped)) = _
  unfold readIpv6
  rw [readGroups_stop true (.inr ⟨_, rfl⟩)]
  dsimp only
  rw [if_neg (by decide), if_neg Bool.false_ne_true]
  simp only [readGivenChar, if_true, Option.bind_eq_bind, Option.bind_some, List.length_nil,
    Nat.sub_zero, tail, List.length_cons, two]
  rfl

theorem segments_append : ∀ {first : Bytes} (_ : first.length % 2 = 0) (second : Bytes),
    segments (first ++ second) = segments first ++ segments second
  | [], _, _ => rfl
  | [_], odd, _ => by simp at odd
  | high :: low :: rest, even, second => by
    have shorter : rest.length % 2 = 0 := by
      rw [List.length_cons, List.length_cons] at even
      omega
    change ofBe16 high low :: segments (rest ++ second) = _
    rw [segments_append shorter second]
    rfl

theorem parseIpv6_displayIpv6 (address : Ipv6Addr) :
    parseIpv6 (displayIpv6 address) = some address := by
  have eight : (segments address.toList).length = 8 := by
    rw [segments_length, List.Vector.toList_length]
  have whole := ipv6OfGroups_segments address
  have read : readIpv6 (displayIpv6 address) = some (address, []) := by
    unfold displayIpv6 toIpv4Mapped
    by_cases mapped : address.toList.take 12 = mappedPrefix
    · rw [if_pos mapped]
      refine (readIpv6_mapped _).trans ?_
      have shape : segments address.toList =
          List.replicate 5 0 ++ 0xFFFF :: segments (address.toList.drop 12) := by
        conv_lhs => rw [← List.take_append_drop 12 address.toList, mapped]
        rw [segments_append (by decide)]
        rfl
      rw [shape] at whole
      exact congrArg (fun found => some (found, [])) whole
    · rw [if_neg mapped]
      dsimp only
      split_ifs with wide
      · obtain ⟨inside, split⟩ := zeroes_split _ wide
        rw [readIpv6_compressed _ _ (zeroes (segments address.toList)).len wide, split, whole]
        rw [List.length_take, List.length_drop]
        omega
      · rw [readIpv6_full _ eight, whole]
  rw [parseIpv6, read]

theorem displayIpv6_chars (address : Ipv6Addr) :
    ∀ c ∈ displayIpv6 address, c = '.' ∨ c = ':' ∨
      ∃ digit, digit < 16 ∧ c = Nat.digitChar digit := by
  have chunk : ∀ groups : List UInt16, ∀ c ∈ fmtSubslice groups,
      c = '.' ∨ c = ':' ∨ ∃ digit, digit < 16 ∧ c = Nat.digitChar digit := by
    intro groups c member
    rcases mem_of_mem_intercalate member with separator | ⟨piece, written, inside⟩
    · exact .inr (.inl separator)
    · obtain ⟨group, _, rfl⟩ := List.mem_map.mp written
      exact .inr (.inr (toDigit_of_mem (by omega) (by omega) group.toNat c inside))
  intro c member
  unfold displayIpv6 at member
  split at member
  · rename_i mapped _
    rcases List.mem_append.mp member with front | dotted
    · have letters : ∀ c ∈ [':', ':', 'f', 'f', 'f', 'f', ':'], c = ':' ∨ c = Nat.digitChar 15 := by
        simp [Nat.digitChar]
      rcases letters c front with colon | letter
      · exact .inr (.inl colon)
      · exact .inr (.inr ⟨15, by omega, letter⟩)
    · rcases displayIpv4_chars mapped c dotted with dot | ⟨digit, small, written⟩
      · exact .inl dot
      · exact .inr (.inr ⟨digit, by omega, written⟩)
  · dsimp only at member
    split_ifs at member
    · rcases List.mem_append.mp member with front | last
      · rcases List.mem_append.mp front with first | colons
        · exact chunk _ c first
        · refine .inr (.inl ?_)
          simpa using colons
      · exact chunk _ c last
    · exact chunk _ c member

end Rdns.Zones
