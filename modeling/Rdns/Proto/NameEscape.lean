import Rdns.Lib.Utf8
import Rdns.Proto.NameText
import Rdns.Proto.NameWire

/-!
# Which names come back from their text

`Display` escapes dots and what is not printable; `parse_str` cuts at every dot and
takes a backslash for itself.  Every character of a text counts as one octet when it is
read, so an escape makes the name longer than it was: exactly the names without one come
back, and two names may have one text.
-/

set_option autoImplicit false

namespace Rdns.Proto

open Rdns.Lib

namespace DnsName

/-! ## The length of a text -/

theorem displayOctet_length (octet : UInt8) : 1 ≤ (displayOctet octet).length :=
  List.length_pos_iff.mpr (displayOctet_ne_nil octet)

theorem printable_of_short {octet : UInt8} (short : (displayOctet octet).length ≤ 1) :
    33 ≤ octet.toNat ∧ octet.toNat ≤ 126 ∧ octet ≠ 46 := by
  have other : octet ≠ 46 := by
    rintro rfl
    exact absurd short (by decide)
  rcases displayOctet_cases other with ⟨low, high, _⟩ | ⟨_, shown⟩
  · exact ⟨low, high, other⟩
  · rw [shown, List.length_cons, List.length_cons] at short
    omega

theorem displayLabel_length (label : Label) :
    label.length ≤ (label.flatMap displayOctet).length := by
  induction label with
  | nil => exact le_rfl
  | cons octet rest ih =>
    have one := displayOctet_length octet
    rw [List.flatMap_cons, List.length_append, List.length_cons]
    omega

theorem printableLabel_of_short {label : Label}
    (short : (label.flatMap displayOctet).length ≤ label.length) : PrintableLabel label := by
  induction label with
  | nil => exact List.forall_mem_nil _
  | cons octet rest ih =>
    have one := displayOctet_length octet
    have more := displayLabel_length rest
    rw [List.flatMap_cons, List.length_append, List.length_cons] at short
    exact List.forall_mem_cons.mpr ⟨printable_of_short (by omega), ih (by omega)⟩

def dotted (labels : List Label) : List Char :=
  labels.flatMap fun label => label.flatMap displayOctet ++ ['.']

theorem dotted_length_cons (label : Label) (rest : List Label) :
    (dotted (label :: rest)).length =
      (label.flatMap displayOctet).length + 1 + (dotted rest).length := by
  rw [dotted, List.flatMap_cons, List.length_append, List.length_append, List.length_singleton]
  rfl

theorem labelsLen_le_dotted (labels : List Label) : labelsLen labels ≤ (dotted labels).length := by
  induction labels with
  | nil => exact le_rfl
  | cons label rest ih =>
    have here := displayLabel_length label
    rw [labelsLen_cons, dotted_length_cons]
    omega

/-- A text no longer than the labels it is for has no escape in it. -/
theorem printable_of_dotted {labels : List Label}
    (short : (dotted labels).length ≤ labelsLen labels) :
    ∀ label ∈ labels, PrintableLabel label := by
  induction labels with
  | nil => exact List.forall_mem_nil _
  | cons label rest ih =>
    have here := displayLabel_length label
    have later := labelsLen_le_dotted rest
    rw [labelsLen_cons, dotted_length_cons] at short
    exact List.forall_mem_cons.mpr ⟨printableLabel_of_short (by omega), ih (by omega)⟩

theorem dotted_ascii (labels : List Label) : ∀ c ∈ dotted labels, c.toNat < 128 := by
  intro c member
  obtain ⟨label, _, inside⟩ := List.mem_flatMap.mp member
  rcases List.mem_append.mp inside with shown | dot
  · obtain ⟨octet, _, char⟩ := List.mem_flatMap.mp shown
    exact Nat.lt_of_le_of_lt (displayOctet_visible octet c char).2 (by decide)
  · rw [List.mem_singleton.mp dot]
    decide

/-! ## Reading the text -/

theorem splitOn_length {chars : List Char} (ascii : ∀ c ∈ chars, c.toNat < 128) :
    labelsLen ((chars.splitOn '.').map fun piece => lowerLabel (utf8 piece)) =
      chars.length + 1 := by
  have whole : ((chars.splitOn '.').flatMap fun piece => piece ++ ['.']) = chars ++ ['.'] := by
    rw [flatMap_dotted _ (List.splitOn_ne_nil _ _), List.intercalate_splitOn]
  have single : ∀ piece ∈ chars.splitOn '.', (utf8 piece).length = piece.length := by
    intro piece member
    refine utf8_length_single fun c inside => ?_
    have among : c ∈ chars ++ ['.'] := by
      rw [← whole]
      exact List.mem_flatMap.mpr ⟨piece, member, List.mem_append_left _ inside⟩
    have small : c.toNat < 128 := by
      rcases List.mem_append.mp among with here | dot
      · exact ascii c here
      · rw [List.mem_singleton.mp dot]
        decide
    rw [Utf8.encodeChar_ascii small]
    rfl
  have lengths := congrArg List.length whole
  rw [List.length_flatMap, List.length_append, List.length_singleton] at lengths
  rw [← lengths, labelsLen, List.map_map]
  congr 1
  refine List.map_congr_left fun piece member => ?_
  rw [Function.comp_apply, lowerLabel_length, single piece member, List.length_append,
    List.length_singleton]

theorem displayChars_dotted {name : DnsName} (some : name.labels ≠ []) :
    name.displayChars = dotted name.labels := by
  have filled : name.labels.isEmpty = false := by simpa using some
  rw [displayChars, filled]
  rfl

theorem printable_of_parseStr {name : DnsName} (parsed : parseStr name.display = .ok name) :
    ∀ label ∈ name.labels, PrintableLabel label := by
  by_cases root : name.labels = []
  · rw [root]
    exact List.forall_mem_nil _
  obtain ⟨inner, shape⟩ : ∃ inner, dotted name.labels = inner ++ ['.'] :=
    ⟨_, (displayChars_dotted root).symm.trans (displayChars_of_labels root)⟩
  have ascii : ∀ c ∈ inner, c.toNat < 128 := fun c member =>
    dotted_ascii name.labels c (by rw [shape]; exact List.mem_append_left _ member)
  unfold parseStr display at parsed
  rw [String.toList_ofList, displayChars_dotted root, shape] at parsed
  dsimp only at parsed
  rw [List.getLast?_concat, if_pos rfl, List.dropLast_concat] at parsed
  by_cases empty : inner.isEmpty = true
  · rw [if_pos empty] at parsed
    exact absurd (congrArg DnsName.labels (Except.ok.inj parsed)).symm root
  rw [if_neg empty] at parsed
  have labels := (fromLabels_eq_ok_iff _ _).mp parsed
  have length : labelsLen name.labels = inner.length + 1 := by
    rw [labels]
    exact splitOn_length ascii
  refine printable_of_dotted ?_
  rw [length, shape, List.length_append, List.length_singleton]

/-- Exactly the names of printable octets in lower case come back from their text, and
among them the text decides the name. -/
theorem display_inverts_iff (name : DnsName) :
    (parseStr name.display = .ok name ↔ ∀ label ∈ name.labels, PlainLabel label) ∧
      ((∀ label ∈ name.labels, PlainLabel label) → ∀ other : DnsName,
        (∀ label ∈ other.labels, PlainLabel label) → name.display = other.display →
          name = other) := by
  have back : ∀ name : DnsName, (∀ label ∈ name.labels, PlainLabel label) →
      parseStr name.display = .ok name := by
    intro name plain
    refine parseStr_displayChars (fun label member dot => ?_) ?_
    · exact ((plain label member).1 46 dot).2.2 rfl
    · exact ((List.map_congr_left fun label member => spelled_of_plain (plain label member)).trans
        (List.map_id' _)).symm
  refine ⟨⟨fun parsed label member => ?_, back name⟩, fun plain other plain' same => ?_⟩
  · refine ⟨printable_of_parseStr parsed label member, ?_⟩
    have lowercase := (parseStr_lowercase parsed).trans (List.map_id name.labels).symm
    exact List.map_inj_left.mp lowercase label member
  · have first := back name plain
    rw [same, back other plain'] at first
    exact (Except.ok.inj first).symm

theorem blank_valid : ValidLabels [[32]] := by decide

theorem escape_valid : ValidLabels [[92, 48, 51, 50]] := by decide

def blank : DnsName := ⟨[[32]], blank_valid⟩

def escape : DnsName := ⟨[[92, 48, 51, 50]], escape_valid⟩

/-- Both come from the wire and have one text, so the blank does not come back. -/
theorem display_conflates :
    fromWire [1, 32, 0] 0 = .ok (blank, 3) ∧ fromWire [4, 92, 48, 51, 50, 0] 0 = .ok (escape, 6) ∧
      blank ≠ escape ∧ blank.display = escape.display ∧ parseStr blank.display ≠ .ok blank := by
  have other : blank ≠ escape := by decide
  refine ⟨rfl, rfl, other, rfl, fun same => ?_⟩
  have read : parseStr blank.display = .ok escape :=
    parseStr_displayChars (by decide) (by decide +kernel)
  rw [read] at same
  exact other (Except.ok.inj same).symm

end DnsName

end Rdns.Proto
