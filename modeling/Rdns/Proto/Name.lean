import Rdns.Lib.Words
import Mathlib.Data.List.Basic

/-!
# Domain names

`DnsName` of dns-proto: a list of labels that always satisfies the length
limits `validate` checks.  The field is private in the source and every
constructor keeps the limits, so here they are part of the type.  Lower case is
not: `from_labels` does not fold case, and `Lowercase` is a separate predicate.
-/

set_option autoImplicit false

namespace Rdns.Proto

open Rdns.Lib

abbrev Label := Bytes

def maxNameWireLen : Nat := 255

def maxLabelLen : Nat := 63

inductive NameError
  | emptyLabel
  | labelTooLong
  | nameTooLong
deriving DecidableEq, Repr

def NameError.display : NameError → String
  | .emptyLabel => "empty label"
  | .labelTooLong => "label exceeds 63 octets"
  | .nameTooLong => "name exceeds 255 octets"

def labelsLen (labels : List Label) : Nat := (labels.map fun label => label.length + 1).sum

@[simp] theorem labelsLen_nil : labelsLen [] = 0 := rfl

@[simp] theorem labelsLen_cons (label : Label) (rest : List Label) :
    labelsLen (label :: rest) = label.length + 1 + labelsLen rest := by
  simp [labelsLen]

@[simp] theorem labelsLen_append (first second : List Label) :
    labelsLen (first ++ second) = labelsLen first + labelsLen second := by
  simp [labelsLen]

def ValidLabel (label : Label) : Prop := 1 ≤ label.length ∧ label.length ≤ maxLabelLen

instance (label : Label) : Decidable (ValidLabel label) :=
  inferInstanceAs (Decidable (_ ∧ _))

/-- The representation invariant of a name. -/
def ValidLabels (labels : List Label) : Prop :=
  (∀ label ∈ labels, ValidLabel label) ∧ labelsLen labels + 1 ≤ maxNameWireLen

instance (labels : List Label) : Decidable (ValidLabels labels) :=
  inferInstanceAs (Decidable (_ ∧ _))

theorem ValidLabels.drop {labels : List Label} (valid : ValidLabels labels) (skip : Nat) :
    ValidLabels (labels.drop skip) := by
  refine ⟨fun label member => valid.1 label (List.mem_of_mem_drop member), ?_⟩
  have split : labelsLen labels = labelsLen (labels.take skip) + labelsLen (labels.drop skip) := by
    rw [← labelsLen_append, List.take_append_drop]
  have bound := valid.2
  omega

structure DnsName where
  labels : List Label
  valid : ValidLabels labels
deriving DecidableEq

@[ext] theorem DnsName.ext {left right : DnsName} (same : left.labels = right.labels) :
    left = right := by
  cases left
  cases right
  cases same
  rfl

namespace DnsName

def root : DnsName := ⟨[], by decide⟩

def isRoot (name : DnsName) : Bool := name.labels.isEmpty

def parent (name : DnsName) : Option DnsName :=
  if name.labels.isEmpty then none
  else some ⟨name.labels.drop 1, name.valid.drop 1⟩

def labelCount (name : DnsName) : Nat := name.labels.length

theorem labelCount_le (name : DnsName) : name.labelCount ≤ 127 := by
  -- every label takes a length octet and at least one octet of its own
  have each : ∀ labels : List Label, (∀ label ∈ labels, ValidLabel label) →
      2 * labels.length ≤ labelsLen labels := by
    intro labels
    induction labels with
    | nil => intro _; exact le_rfl
    | cons label rest ih =>
      intro valid
      obtain ⟨here, later⟩ := List.forall_mem_cons.mp valid
      have first := here.1
      have others := ih later
      rw [labelsLen_cons, List.length_cons]
      omega
  have double := each name.labels name.valid.1
  have limit : labelsLen name.labels + 1 ≤ 255 := name.valid.2
  unfold labelCount
  omega

def wireLen (name : DnsName) : Nat := labelsLen name.labels + 1

end DnsName

def validateEach : List Label → Except NameError Unit
  | [] => .ok ()
  | label :: rest =>
    if label.isEmpty then .error .emptyLabel
    else if label.length > maxLabelLen then .error .labelTooLong
    else validateEach rest

def validate (labels : List Label) : Except NameError Unit := do
  validateEach labels
  if labelsLen labels + 1 > maxNameWireLen then .error .nameTooLong
  else .ok ()

theorem validateEach_eq_ok_iff (labels : List Label) :
    validateEach labels = .ok () ↔ ∀ label ∈ labels, ValidLabel label := by
  induction labels with
  | nil => simp [validateEach]
  | cons label rest ih =>
    by_cases empty : label = []
    · simp [validateEach, empty, ValidLabel]
    · have positive : 1 ≤ label.length := List.length_pos_iff.mpr empty
      by_cases long : label.length > maxLabelLen
      · have notValid : ¬ ValidLabel label := fun valid => absurd valid.2 (by omega)
        simp [validateEach, empty, long, notValid]
      · have good : ValidLabel label := ⟨positive, by omega⟩
        simp [validateEach, empty, long, good, ih]

theorem validate_eq_ok_iff (labels : List Label) :
    validate labels = .ok () ↔ ValidLabels labels := by
  unfold validate ValidLabels
  rw [← validateEach_eq_ok_iff]
  cases checked : validateEach labels with
  | error e => simp [Bind.bind, Except.bind]
  | ok _ =>
    by_cases long : labelsLen labels + 1 > maxNameWireLen
    · have notShort : ¬ labelsLen labels + 1 ≤ maxNameWireLen := by omega
      simp [Bind.bind, Except.bind, long, notShort]
    · have short : labelsLen labels + 1 ≤ maxNameWireLen := by omega
      simp [Bind.bind, Except.bind, long, short]

def toAsciiLowercase (octet : UInt8) : UInt8 :=
  if 65 ≤ octet ∧ octet ≤ 90 then octet + 32 else octet

def lowerLabel (label : Label) : Label := label.map toAsciiLowercase

theorem lowerLabel_length (label : Label) : (lowerLabel label).length = label.length := by
  simp [lowerLabel]

theorem lowerLabel_lowerLabel (label : Label) :
    lowerLabel (lowerLabel label) = lowerLabel label := by
  have fixed : ∀ octet : UInt8,
      toAsciiLowercase (toAsciiLowercase octet) = toAsciiLowercase octet := by
    intro octet
    unfold toAsciiLowercase
    split
    · rename_i upper
      rw [if_neg]
      simp only [UInt8.le_iff_toNat_le, UInt8.toNat_add, UInt8.reduceToNat] at upper ⊢
      omega
    · rfl
  rw [lowerLabel, lowerLabel, List.map_map]
  exact List.map_congr_left fun octet _ => fixed octet

theorem labelsLen_lower (labels : List Label) :
    labelsLen (labels.map lowerLabel) = labelsLen labels := by
  simp [labelsLen, Function.comp_def, lowerLabel_length]

theorem validLabels_lower (labels : List Label) :
    ValidLabels (labels.map lowerLabel) ↔ ValidLabels labels := by
  simp [ValidLabels, ValidLabel, labelsLen_lower, lowerLabel_length]

def utf8 (chars : List Char) : Bytes := chars.flatMap String.utf8EncodeChar

namespace DnsName

def Lowercase (name : DnsName) : Prop := name.labels.map lowerLabel = name.labels

instance (name : DnsName) : Decidable name.Lowercase := inferInstanceAs (Decidable (_ = _))

def lower (name : DnsName) : DnsName :=
  ⟨name.labels.map lowerLabel, (validLabels_lower name.labels).mpr name.valid⟩

theorem lower_of_lowercase {name : DnsName} (lowercase : name.Lowercase) : name.lower = name :=
  DnsName.ext lowercase

def fromLabels (labels : List Label) : Except NameError DnsName :=
  match checked : validate labels with
  | .ok () => .ok ⟨labels, (validate_eq_ok_iff labels).mp checked⟩
  | .error e => .error e

theorem fromLabels_eq_ok_iff (labels : List Label) (name : DnsName) :
    fromLabels labels = .ok name ↔ name.labels = labels := by
  unfold fromLabels
  constructor
  · intro success
    split at success
    · cases success
      rfl
    · cases success
  · intro same
    subst same
    split
    · rfl
    · rename_i e refused
      rw [(validate_eq_ok_iff name.labels).mpr name.valid] at refused
      cases refused

/-- Dotted text; one trailing dot is accepted and not required. -/
def parseStr (text : String) : Except NameError DnsName :=
  let chars := text.toList
  let chars := if chars.getLast? = some '.' then chars.dropLast else chars
  if chars.isEmpty then .ok root
  else fromLabels ((chars.splitOn '.').map fun label => lowerLabel (utf8 label))

def concat (name suffix : DnsName) : Except NameError DnsName :=
  fromLabels (name.labels ++ suffix.labels)

def endsWith (name suffix : DnsName) : Bool :=
  let count := suffix.labels.length
  decide (name.labels.length ≥ count) &&
    decide (name.labels.drop (name.labels.length - count) = suffix.labels)

theorem endsWith_iff (name suffix : DnsName) :
    name.endsWith suffix = true ↔ suffix.labels <:+ name.labels := by
  simp only [endsWith, Bool.and_eq_true, decide_eq_true_eq]
  constructor
  · rintro ⟨_, same⟩
    rw [← same]
    exact List.drop_suffix _ _
  · intro suffixed
    exact ⟨suffixed.length_le, (List.suffix_iff_eq_drop.mp suffixed).symm⟩

theorem endsWith_refl (name : DnsName) : name.endsWith name = true :=
  (endsWith_iff name name).mpr (List.suffix_refl _)

theorem endsWith_trans {name middle suffix : DnsName} (lower : name.endsWith middle = true)
    (upper : middle.endsWith suffix = true) : name.endsWith suffix = true :=
  (endsWith_iff name suffix).mpr
    (((endsWith_iff middle suffix).mp upper).trans ((endsWith_iff name middle).mp lower))

theorem eq_of_endsWith {name left right : DnsName} (first : name.endsWith left = true)
    (second : name.endsWith right = true) (same : left.labelCount = right.labelCount) :
    left = right := by
  have inFirst := List.suffix_iff_eq_drop.mp ((endsWith_iff name left).mp first)
  have inSecond := List.suffix_iff_eq_drop.mp ((endsWith_iff name right).mp second)
  have lengths : left.labels.length = right.labels.length := same
  rw [lengths] at inFirst
  exact DnsName.ext (inFirst.trans inSecond.symm)

theorem endsWith_of_le {name upper lower : DnsName} (first : name.endsWith upper = true)
    (second : name.endsWith lower = true) (above : upper.labelCount ≤ lower.labelCount) :
    lower.endsWith upper = true :=
  (endsWith_iff lower upper).mpr (List.suffix_of_suffix_length_le
    ((endsWith_iff name upper).mp first) ((endsWith_iff name lower).mp second)
    above)

theorem labelCount_le_of_endsWith {name above : DnsName} (ends : name.endsWith above = true) :
    above.labelCount ≤ name.labelCount :=
  ((endsWith_iff name above).mp ends).length_le

theorem endsWith_parent {name above : DnsName} (found : name.parent = some above) :
    name.endsWith above = true := by
  unfold parent at found
  split at found
  · cases found
  · cases found
    exact (endsWith_iff name _).mpr (List.drop_suffix 1 name.labels)

def star : Label := [42]

def wildcardAt (name : DnsName) (skip : Nat) : Option DnsName :=
  if outside : skip = 0 ∨ skip > name.labels.length then none
  else some ⟨star :: name.labels.drop skip, by
    -- at least one label of at least one octet goes, one label of one octet comes
    have rest := name.valid.drop (skip - 1)
    have one : name.labels.drop (skip - 1) ≠ [] := by
      intro nil
      have := List.drop_eq_nil_iff.mp nil
      omega
    obtain ⟨label, tail, shape⟩ := List.exists_cons_of_ne_nil one
    have tailEq : name.labels.drop skip = tail := by
      have step : name.labels.drop skip = (name.labels.drop (skip - 1)).drop 1 := by
        rw [List.drop_drop]
        congr 1
        omega
      rw [step, shape]
      rfl
    rw [shape] at rest
    rw [tailEq]
    have labelValid := rest.1 label (by simp)
    refine ⟨?_, ?_⟩
    · intro other member
      rcases List.mem_cons.mp member with rfl | member
      · decide
      · exact rest.1 other (by simp [member])
    · have bound := rest.2
      have length := labelValid.1
      have starLength : star.length = 1 := rfl
      simp only [labelsLen_cons] at bound ⊢
      omega⟩

def displayOctet (octet : UInt8) : List Char :=
  if octet = 46 then ['\\', '.']
  else if 33 ≤ octet ∧ octet ≤ 126 then [Char.ofNat octet.toNat]
  else
    let value := octet.toNat
    ['\\', Nat.digitChar (value / 100), Nat.digitChar (value / 10 % 10), Nat.digitChar (value % 10)]

def displayChars (name : DnsName) : List Char :=
  if name.labels.isEmpty then ['.']
  else name.labels.flatMap fun label => label.flatMap displayOctet ++ ['.']

def display (name : DnsName) : String := String.ofList name.displayChars

end DnsName

end Rdns.Proto
