import Rdns.Lib.Latest
import Rdns.Proto.Message

/-!
# EDNS options

The options of an OPT record are one string of octets, a code, a length and a value each,
that every access reads from its start.  Through `set_option` and `remove_option` the
string stays the spelling of a list of entries, so that values that look like options
are never taken for any, and the string is the map it is used as.
-/

set_option autoImplicit false

namespace Rdns.Proto

open Rdns.Lib

def getOptionLoop (code : UInt16) : Nat → Bytes → Option Bytes
  | fuel + 1, codeHigh :: codeLow :: lenHigh :: lenLow :: rest =>
    let len := (ofBe16 lenHigh lenLow).toNat
    if rest.length < len then none
    else if ofBe16 codeHigh codeLow = code then some (rest.take len)
    else getOptionLoop code fuel (rest.drop len)
  | _, _ => none

def Edns.getOption (edns : Edns) (code : UInt16) : Option Bytes :=
  getOptionLoop code edns.options.length edns.options

abbrev OptionData := { data : Bytes // data.length ≤ 65535 }

def optionWire (option : UInt16 × OptionData) : Bytes :=
  toBe16 option.1 ++ toBe16 (UInt16.ofNat option.2.1.length) ++ option.2.1

def Edns.Spells (edns : Edns) (options : List (UInt16 × OptionData)) : Prop :=
  edns.options = options.flatMap optionWire

/-! ## Reading options that were written -/

theorem optionWire_eq (option : UInt16 × OptionData) (rest : Bytes) :
    ∃ codeHigh codeLow lenHigh lenLow,
      optionWire option ++ rest =
        codeHigh :: codeLow :: lenHigh :: lenLow :: (option.2.1 ++ rest) ∧
      [codeHigh, codeLow, lenHigh, lenLow] ++ option.2.1 = optionWire option ∧
      ofBe16 codeHigh codeLow = option.1 ∧
      (ofBe16 lenHigh lenLow).toNat = option.2.1.length := by
  obtain ⟨code, data, short⟩ := option
  refine ⟨(code >>> 8).toUInt8, code.toUInt8, (UInt16.ofNat data.length >>> 8).toUInt8,
    (UInt16.ofNat data.length).toUInt8, rfl, rfl, ofBe16_toBe16 code, ?_⟩
  rw [ofBe16_toBe16, UInt16.toNat_ofNat']
  exact Nat.mod_eq_of_lt (by omega)

theorem removeOptionLoop_spelled (code : UInt16) (options : List (UInt16 × OptionData)) :
    ∀ fuel, options.length ≤ fuel →
      removeOptionLoop code fuel (options.flatMap optionWire) =
        (options.filter fun option => option.1 ≠ code).flatMap optionWire := by
  induction options with
  | nil =>
    intro fuel _
    cases fuel <;> rfl
  | cons option rest ih =>
    intro fuel enough
    rw [List.length_cons] at enough
    obtain ⟨fuel, rfl⟩ : ∃ less, fuel = less + 1 := ⟨fuel - 1, by omega⟩
    obtain ⟨codeHigh, codeLow, lenHigh, lenLow, spelled, whole, isCode, length⟩ :=
      optionWire_eq option (rest.flatMap optionWire)
    rw [List.flatMap_cons, spelled, removeOptionLoop, isCode, length, List.take_left,
      List.drop_left, whole, ih fuel (by omega)]
    by_cases gone : option.1 = code
    · rw [if_neg (not_not.mpr gone), List.filter_cons_of_neg (by simp [gone])]
      rfl
    · rw [if_pos gone, List.filter_cons_of_pos (by simpa using gone), List.flatMap_cons]

theorem getOptionLoop_spelled (code : UInt16) (options : List (UInt16 × OptionData)) :
    ∀ fuel, options.length ≤ fuel →
      getOptionLoop code fuel (options.flatMap optionWire) =
        (valueAt options code).map Subtype.val := by
  induction options with
  | nil =>
    intro fuel _
    cases fuel <;> rfl
  | cons option rest ih =>
    intro fuel enough
    rw [List.length_cons] at enough
    obtain ⟨fuel, rfl⟩ : ∃ less, fuel = less + 1 := ⟨fuel - 1, by omega⟩
    obtain ⟨codeHigh, codeLow, lenHigh, lenLow, spelled, _, isCode, length⟩ :=
      optionWire_eq option (rest.flatMap optionWire)
    have whole : ¬ (option.2.1 ++ rest.flatMap optionWire).length < option.2.1.length := by
      rw [List.length_append]
      omega
    rw [List.flatMap_cons, spelled, getOptionLoop, isCode, length, if_neg whole, List.take_left,
      List.drop_left, ih fuel (by omega)]
    unfold valueAt
    by_cases own : option.1 = code
    · rw [if_pos own, List.find?_cons_of_pos (by simpa using own)]
      rfl
    · rw [if_neg own, List.find?_cons_of_neg (by simpa using own)]

/-! ## Runs of edits -/

def Edns.change (edns : Edns) : Change UInt16 OptionData → Edns
  | .set code data => edns.setOption code data.1
  | .remove code => edns.removeOption code

/-- An option takes four octets at least, so that the rounds suffice. -/
theorem length_le_spelled (options : List (UInt16 × OptionData)) :
    options.length ≤ (options.flatMap optionWire).length := by
  induction options with
  | nil => exact Nat.le_refl 0
  | cons option rest ih =>
    simp only [List.flatMap_cons, List.length_append, List.length_cons, optionWire, toBe16_length]
    omega

section Spelled

variable {edns : Edns} {options : List (UInt16 × OptionData)}

theorem Edns.Spells.removed (spelled : edns.Spells options) (code : UInt16) :
    (edns.removeOption code).Spells (options.filter fun option => option.1 ≠ code) := by
  have removed := removeOptionLoop_spelled code options _ (length_le_spelled options)
  rw [← show edns.options = options.flatMap optionWire from spelled] at removed
  exact removed

theorem Edns.Spells.change (spelled : edns.Spells options) (edit : Change UInt16 OptionData) :
    (edns.change edit).Spells (edit.apply options) := by
  cases edit with
  | remove code => exact spelled.removed code
  | set code data =>
    have kept : (edns.removeOption code).options = _ := spelled.removed code
    have appended : (edns.setOption code data.1).options =
        (edns.removeOption code).options ++ optionWire (code, data) := by
      simp only [Edns.setOption, optionWire, List.append_assoc]
    unfold Edns.Spells
    change (edns.setOption code data.1).options = _
    rw [appended, kept, Change.apply, List.flatMap_append, List.flatMap_singleton]

theorem Edns.Spells.getOption (spelled : edns.Spells options) (code : UInt16) :
    edns.getOption code = (valueAt options code).map Subtype.val := by
  have found := getOptionLoop_spelled code options _ (length_le_spelled options)
  rw [← show edns.options = options.flatMap optionWire from spelled] at found
  exact found

end Spelled

theorem edits_spelled (edns : Edns) (edits : List (Change UInt16 OptionData)) :
    (edits.foldl Edns.change { edns with options := [] }).Spells
      (edits.foldl Change.apply []) := by
  have each : ∀ (edits : List (Change UInt16 OptionData)) (edns : Edns)
      (options : List (UInt16 × OptionData)), edns.Spells options →
      (edits.foldl Edns.change edns).Spells (edits.foldl Change.apply options) := by
    intro edits
    induction edits with
    | nil => exact fun _ _ spelled => spelled
    | cons edit rest ih => exact fun _ _ spelled => ih _ _ (spelled.change edit)
  exact each edits _ [] rfl

/-- From empty options, through any edits, a code has the value of the latest edit that
set it and was not followed by its removal; and one more edit leaves the other codes. -/
theorem getOption_latest (edns : Edns) (edits : List (Change UInt16 OptionData)) (code : UInt16) :
    (∀ value, (edits.foldl Edns.change { edns with options := [] }).getOption code = some value ↔
      ∃ short, IsLatest edits code (⟨value, short⟩ : OptionData)) ∧
    ∀ edit : Change UInt16 OptionData, edit.key ≠ code →
      ((edits.foldl Edns.change { edns with options := [] }).change edit).getOption code =
        (edits.foldl Edns.change { edns with options := [] }).getOption code := by
  have spelled := edits_spelled edns edits
  constructor
  · intro value
    rw [spelled.getOption, Option.map_eq_some_iff]
    constructor
    · rintro ⟨⟨data, short⟩, found, rfl⟩
      exact ⟨short, (valueAt_foldl_iff edits code _).mp found⟩
    · rintro ⟨short, latest⟩
      exact ⟨_, (valueAt_foldl_iff edits code _).mpr latest, rfl⟩
  · intro edit other
    rw [(spelled.change edit).getOption, spelled.getOption, valueAt_apply, if_neg other]

end Rdns.Proto
