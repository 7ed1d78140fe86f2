import Rdns.Proto.Accepted
import Rdns.Proto.NameText

/-!
# The invariant of names

`DnsName` of the source is a bare list of labels that its functions keep in order: some
of them validate, `wildcard_at` and `parent` do not, and only the two readers fold case.
Here the functions are taken on bare lists, as the source has them.  Whatever is built
from them satisfies the invariant the other modules have as a field, so the two layers
agree, and comparing names octet by octet is comparing them without case.
-/

set_option autoImplicit false

namespace Rdns.Proto

open Rdns.Lib

/-! ## Bare names -/

/-- The struct of the source, without its invariant. -/
@[ext]
structure RawName where
  labels : List Label
deriving DecidableEq

namespace RawName

def root : RawName := ⟨[]⟩

def parent (name : RawName) : Option RawName :=
  if name.labels.isEmpty then none else some ⟨name.labels.drop 1⟩

def wireLen (name : RawName) : Nat := labelsLen name.labels + 1

def fromLabels (labels : List Label) : Except NameError RawName := do
  validate labels
  pure ⟨labels⟩

def parseStr (text : String) : Except NameError RawName :=
  let chars := text.toList
  let chars := if chars.getLast? = some '.' then chars.dropLast else chars
  if chars.isEmpty then .ok root
  else fromLabels ((chars.splitOn '.').map fun label => lowerLabel (utf8 label))

def concat (name suffix : RawName) : Except NameError RawName :=
  fromLabels (name.labels ++ suffix.labels)

def endsWith (name suffix : RawName) : Bool :=
  let count := suffix.labels.length
  decide (name.labels.length ≥ count) &&
    decide (name.labels.drop (name.labels.length - count) = suffix.labels)

def wildcardAt (name : RawName) (skip : Nat) : Option RawName :=
  if skip = 0 ∨ skip > name.labels.length then none
  else some ⟨DnsName.star :: name.labels.drop skip⟩

/-- Not validated at the end; the loop counts the octets. -/
def fromWire (buf : Bytes) : Parse RawName := fun pos =>
  (decodeLoop buf decodeFuel pos none 0 1 []).map fun read => (⟨read.1⟩, read.2)

def toWire (name : RawName) (out : Bytes) : Bytes := (toWireLoop name.labels out none).1

end RawName

/-- The names any composition of the functions can build.  The labels for `from_labels`
come from such names, or are the star. -/
inductive Obtainable : RawName → Prop
  | root : Obtainable RawName.root
  | parseStr {text : String} {name : RawName} (parsed : RawName.parseStr text = .ok name) :
      Obtainable name
  | fromWire {buf : Bytes} {pos pos' : Nat} {name : RawName}
      (read : RawName.fromWire buf pos = .ok (name, pos')) : Obtainable name
  | parent {name above : RawName} (given : Obtainable name) (found : name.parent = some above) :
      Obtainable above
  | concat {name suffix whole : RawName} (first : Obtainable name) (second : Obtainable suffix)
      (joined : name.concat suffix = .ok whole) : Obtainable whole
  | wildcardAt {name wildcard : RawName} {skip : Nat} (given : Obtainable name)
      (found : name.wildcardAt skip = some wildcard) : Obtainable wildcard
  | fromLabels {labels : List Label} {name : RawName} (source : Label → RawName)
      (given : ∀ label ∈ labels, Obtainable (source label))
      (taken : ∀ label ∈ labels, label = DnsName.star ∨ label ∈ (source label).labels)
      (made : RawName.fromLabels labels = .ok name) : Obtainable name

/-! ## The two layers -/

def DnsName.raw (name : DnsName) : RawName := ⟨name.labels⟩

namespace DnsName

theorem raw_parent (name : DnsName) : name.raw.parent = name.parent.map raw := by
  unfold parent RawName.parent raw
  split <;> rfl

theorem raw_fromLabels (labels : List Label) :
    RawName.fromLabels labels = (fromLabels labels).map raw := by
  unfold RawName.fromLabels fromLabels
  split
  · rename_i checked
    change (do validate labels; pure ⟨labels⟩) = Except.ok (RawName.mk labels)
    rw [checked]
    rfl
  · rename_i error refused
    rw [refused]
    rfl

theorem raw_parseStr (text : String) : RawName.parseStr text = (parseStr text).map raw := by
  unfold RawName.parseStr parseStr
  dsimp only
  generalize (if text.toList.getLast? = some '.' then text.toList.dropLast else text.toList) = chars
  by_cases empty : chars.isEmpty = true
  · rw [if_pos empty, if_pos empty]
    rfl
  · rw [if_neg empty, if_neg empty, raw_fromLabels]

theorem raw_concat (name suffix : DnsName) :
    name.raw.concat suffix.raw = (name.concat suffix).map raw :=
  raw_fromLabels _

theorem raw_wildcardAt (name : DnsName) (skip : Nat) :
    name.raw.wildcardAt skip = (name.wildcardAt skip).map raw := by
  unfold wildcardAt RawName.wildcardAt raw
  by_cases outside : skip = 0 ∨ skip > name.labels.length
  · rw [if_pos outside, dif_pos outside]
    rfl
  · rw [if_neg outside, dif_neg outside]
    rfl

theorem raw_fromWire (buf : Bytes) (pos : Nat) :
    RawName.fromWire buf pos = (fromWire buf pos).map fun read => (read.1.raw, read.2) := by
  unfold RawName.fromWire fromWire
  split
  · rename_i error failed
    rw [failed]
    rfl
  · rename_i labels finish decoded
    change _ = Except.ok (RawName.mk labels, finish)
    rw [decoded]
    rfl

/-! ## The invariant -/

theorem lowercase_iff (name : DnsName) :
    name.Lowercase ↔ ∀ label ∈ name.labels, lowerLabel label = label := by
  rw [Lowercase]
  nth_rewrite 2 [← List.map_id name.labels]
  exact List.map_inj_left

end DnsName

theorem lowerLabel_star : lowerLabel DnsName.star = DnsName.star := rfl

theorem map_eq_ok {ε α β : Type} {result : Except ε α} {f : α → β} {value : β}
    (mapped : result.map f = .ok value) : ∃ found, result = .ok found ∧ f found = value := by
  cases result with
  | error e => cases mapped
  | ok found => exact ⟨found, rfl, Except.ok.inj mapped⟩

theorem Obtainable.exists_name {raw : RawName} (obtainable : Obtainable raw) :
    ∃ name : DnsName, name.raw = raw ∧ name.Lowercase := by
  induction obtainable with
  | root => exact ⟨DnsName.root, rfl, rfl⟩
  | parseStr parsed =>
    rw [DnsName.raw_parseStr] at parsed
    obtain ⟨name, read, same⟩ := map_eq_ok parsed
    exact ⟨name, same, parseStr_lowercase read⟩
  | fromWire read =>
    rw [DnsName.raw_fromWire] at read
    obtain ⟨⟨name, finish⟩, found, same⟩ := map_eq_ok read
    exact ⟨name, congrArg Prod.fst same, fromWire_lowercase found⟩
  | parent _ found ih =>
    obtain ⟨name, rfl, lowercase⟩ := ih
    rw [DnsName.raw_parent] at found
    obtain ⟨above, parent, same⟩ := Option.map_eq_some_iff.mp found
    refine ⟨above, same, (DnsName.lowercase_iff above).mpr fun label member => ?_⟩
    have suffixed := (DnsName.endsWith_iff name above).mp (DnsName.endsWith_parent parent)
    exact (DnsName.lowercase_iff name).mp lowercase label (suffixed.subset member)
  | concat _ _ joined first second =>
    obtain ⟨name, rfl, lowercase⟩ := first
    obtain ⟨suffix, rfl, lowercase'⟩ := second
    rw [DnsName.raw_concat] at joined
    obtain ⟨whole, made, same⟩ := map_eq_ok joined
    refine ⟨whole, same, (DnsName.lowercase_iff whole).mpr fun label member => ?_⟩
    rw [(DnsName.fromLabels_eq_ok_iff _ _).mp made] at member
    rcases List.mem_append.mp member with front | back
    · exact (DnsName.lowercase_iff name).mp lowercase label front
    · exact (DnsName.lowercase_iff suffix).mp lowercase' label back
  | @wildcardAt _ _ skip _ found ih =>
    obtain ⟨name, rfl, lowercase⟩ := ih
    rw [DnsName.raw_wildcardAt] at found
    obtain ⟨wildcard, made, same⟩ := Option.map_eq_some_iff.mp found
    have starred : wildcard.labels = DnsName.star :: name.labels.drop skip := by
      unfold DnsName.wildcardAt at made
      split at made
      · cases made
      · cases made
        rfl
    refine ⟨wildcard, same, (DnsName.lowercase_iff wildcard).mpr fun label member => ?_⟩
    rw [starred] at member
    rcases List.mem_cons.mp member with rfl | kept
    · exact lowerLabel_star
    · exact (DnsName.lowercase_iff name).mp lowercase label (List.mem_of_mem_drop kept)
  | fromLabels source _ taken made ih =>
    rw [DnsName.raw_fromLabels] at made
    obtain ⟨name, found, same⟩ := map_eq_ok made
    refine ⟨name, same, (DnsName.lowercase_iff name).mpr fun label member => ?_⟩
    rw [(DnsName.fromLabels_eq_ok_iff _ _).mp found] at member
    rcases taken label member with rfl | inside
    · exact lowerLabel_star
    · obtain ⟨origin, same', lowercase⟩ := ih label member
      rw [← same'] at inside
      exact (DnsName.lowercase_iff origin).mp lowercase label inside

theorem Obtainable.ofLabels {name made : DnsName} (given : Obtainable name.raw)
    {labels : List Label} (taken : ∀ label ∈ labels, label = DnsName.star ∨ label ∈ name.labels)
    (built : DnsName.fromLabels labels = .ok made) : Obtainable made.raw := by
  refine .fromLabels (fun _ => name.raw) (fun _ _ => given) taken ?_
  rw [DnsName.raw_fromLabels, built]
  rfl

/-! ## Comparing names -/

def SameIgnoringCase (name other : RawName) : Prop :=
  name.labels.map lowerLabel = other.labels.map lowerLabel

def canonicalForm (name : RawName) : Bytes := plainOctets (name.labels.map lowerLabel)

theorem not_upper_of_lower {label : Label} (lower : lowerLabel label = label) :
    ∀ octet ∈ label, ¬ (65 ≤ octet ∧ octet ≤ 90) := by
  intro octet member upper
  have fixed : toAsciiLowercase octet = octet :=
    List.map_inj_left.mp (lower.trans (List.map_id label).symm) octet member
  rw [toAsciiLowercase, if_pos upper, ← UInt8.toNat_inj, UInt8.toNat_add] at fixed
  have small : octet.toNat ≤ 90 := UInt8.le_iff_toNat_le.mp upper.2
  change (octet.toNat + 32) % 256 = octet.toNat at fixed
  omega

/-- The invariant of every name that can be built, and what it makes of the operations
that look at the octets. -/
theorem obtainable_invariant {name : RawName} (obtainable : Obtainable name) :
    (∀ label ∈ name.labels, 1 ≤ label.length ∧ label.length ≤ 63 ∧
      ∀ octet ∈ label, ¬ (65 ≤ octet ∧ octet ≤ 90)) ∧
    name.wireLen ≤ 255 ∧
    (∀ out, name.toWire out = out ++ canonicalForm name) ∧
    ∀ other, Obtainable other →
      (name = other ↔ SameIgnoringCase name other) ∧
      (∀ hash : List Label → UInt64,
        SameIgnoringCase name other → hash name.labels = hash other.labels) ∧
      (name.endsWith other = true ↔
        other.labels.map lowerLabel <:+ name.labels.map lowerLabel) := by
  obtain ⟨valid, rfl, lowercase⟩ := obtainable.exists_name
  have folded : valid.labels.map lowerLabel = valid.labels := lowercase
  refine ⟨fun label member => ?_, valid.valid.2, fun out => ?_, fun other obtainable' => ?_⟩
  · obtain ⟨positive, short⟩ := valid.valid.1 label member
    exact ⟨positive, short,
      not_upper_of_lower ((DnsName.lowercase_iff valid).mp lowercase label member)⟩
  · rw [RawName.toWire, toWireLoop_none, canonicalForm]
    change _ = out ++ plainOctets (valid.labels.map lowerLabel)
    rw [folded]
    rfl
  · obtain ⟨valid', rfl, lowercase'⟩ := obtainable'.exists_name
    have folded' : valid'.labels.map lowerLabel = valid'.labels := lowercase'
    have same : SameIgnoringCase valid.raw valid'.raw ↔ valid.labels = valid'.labels := by
      change valid.labels.map lowerLabel = valid'.labels.map lowerLabel ↔ _
      rw [folded, folded']
    refine ⟨?_, fun hash equal => congrArg hash (same.mp equal), ?_⟩
    · rw [same]
      exact RawName.ext_iff
    · change _ ↔ valid'.labels.map lowerLabel <:+ valid.labels.map lowerLabel
      rw [folded, folded']
      exact DnsName.endsWith_iff valid valid'

theorem wildcard_invariant :
    ∃ wildcard : RawName, Obtainable wildcard ∧ wildcard.labels = [[42], [101, 120]] ∧
      ∀ out, wildcard.toWire out = out ++ canonicalForm wildcard := by
  have parsed : RawName.parseStr "WWW.Ex." = .ok ⟨[[119, 119, 119], [101, 120]]⟩ := by
    decide +kernel
  have found : RawName.wildcardAt ⟨[[119, 119, 119], [101, 120]]⟩ 1 =
      some ⟨[[42], [101, 120]]⟩ := rfl
  have obtainable := Obtainable.wildcardAt (.parseStr parsed) found
  exact ⟨_, obtainable, rfl, (obtainable_invariant obtainable).2.2.1⟩

end Rdns.Proto
