import Rdns.Proto.Name

/-!
# Names as text

How `parse_str` splits the text of a name into labels, and what it makes of the
text `display` writes.  Escapes are written and not understood: `\DDD` is read back
as four octets, so only names of printable octets come back unchanged.
-/

set_option autoImplicit false

namespace Rdns.Proto

open Rdns.Lib

theorem ofNat_toNat_ascii (n : Nat) (small : n < 128) : (Char.ofNat n).toNat = n := by
  have valid : n.isValidChar := .inl (by omega)
  rw [Char.ofNat, dif_pos valid]
  rfl

theorem utf8_length_single {text : List Char}
    (single : ∀ c ∈ text, (String.utf8EncodeChar c).length = 1) :
    (utf8 text).length = text.length := by
  induction text with
  | nil => rfl
  | cons c rest ih =>
    obtain ⟨here, later⟩ := List.forall_mem_cons.mp single
    have others : (utf8 rest).length = rest.length := ih later
    change (String.utf8EncodeChar c ++ utf8 rest).length = _
    rw [List.length_append, here, others, List.length_cons, Nat.add_comm]

theorem splitOn_alone {label : List Char} (plain : '.' ∉ label) : label.splitOn '.' = [label] := by
  have whole : (['.'].intercalate [label]).splitOn '.' = [label] :=
    List.splitOn_intercalate '.' (fun other member => by rwa [List.mem_singleton.mp member])
      (List.cons_ne_nil _ _)
  rwa [List.intercalate_singleton] at whole

theorem splitOn_label {label : List Char} (plain : '.' ∉ label) (rest : List Char) :
    (label ++ '.' :: rest).splitOn '.' = label :: rest.splitOn '.' := by
  have alone := splitOn_alone plain
  have split : (label ++ '.' :: rest).splitOnP (· == '.') =
      label.splitOnP (· == '.') ++ rest.splitOnP (· == '.') :=
    List.splitOnP_append_cons label rest rfl
  rw [List.splitOn] at alone
  rw [List.splitOn, split, alone]
  rfl

theorem parseStr_lowercase {text : String} {name : DnsName}
    (parsed : DnsName.parseStr text = .ok name) : name.Lowercase := by
  unfold DnsName.parseStr at parsed
  dsimp only at parsed
  generalize (if text.toList.getLast? = some '.' then text.toList.dropLast else text.toList) = chars
    at parsed
  by_cases empty : chars.isEmpty = true
  · rw [if_pos empty] at parsed
    cases parsed
    rfl
  · rw [if_neg empty] at parsed
    have labels := (DnsName.fromLabels_eq_ok_iff _ _).mp parsed
    rw [DnsName.Lowercase, labels, List.map_map]
    exact List.map_congr_left fun label _ => lowerLabel_lowerLabel (utf8 label)

namespace DnsName

theorem parseStr_first {label rest : List Char} {name : DnsName} (plain : '.' ∉ label)
    (more : rest ≠ []) (parsed : parseStr (String.ofList (label ++ '.' :: rest)) = .ok name) :
    name.labels.head? = some (lowerLabel (utf8 label)) := by
  have start : ∃ tail, (if (label ++ '.' :: rest).getLast? = some '.' then
      (label ++ '.' :: rest).dropLast else label ++ '.' :: rest) = label ++ '.' :: tail := by
    split
    · refine ⟨rest.dropLast, ?_⟩
      rw [List.dropLast_append_of_ne_nil (List.cons_ne_nil _ _), List.dropLast_cons_of_ne_nil more]
    · exact ⟨rest, rfl⟩
  obtain ⟨tail, shape⟩ := start
  have filled : (label ++ '.' :: tail).isEmpty = false := by simp
  unfold parseStr at parsed
  rw [String.toList_ofList] at parsed
  dsimp only at parsed
  rw [shape, filled, splitOn_label plain] at parsed
  rw [(fromLabels_eq_ok_iff _ _).mp parsed]
  rfl

/-! ## Displayed names -/

def spelled (label : Label) : Label := lowerLabel (utf8 (label.flatMap displayOctet))

theorem digitChar_ne_dot (value : Nat) : Nat.digitChar (value % 10) ≠ '.' := by
  have all : ∀ digit : Fin 10, Nat.digitChar digit.val ≠ '.' := by decide
  exact all ⟨value % 10, Nat.mod_lt _ (by decide)⟩

theorem displayOctet_cases {octet : UInt8} (other : octet ≠ 46) :
    (33 ≤ octet.toNat ∧ octet.toNat ≤ 126 ∧ displayOctet octet = [Char.ofNat octet.toNat]) ∨
      (¬ (33 ≤ octet.toNat ∧ octet.toNat ≤ 126) ∧
        displayOctet octet = ['\\', Nat.digitChar (octet.toNat / 100 % 10),
          Nat.digitChar (octet.toNat / 10 % 10), Nat.digitChar (octet.toNat % 10)]) := by
  have bound := octet.toNat_lt
  have first : octet.toNat / 100 = octet.toNat / 100 % 10 := by omega
  unfold displayOctet
  rw [if_neg other]
  by_cases printable : 33 ≤ octet.toNat ∧ octet.toNat ≤ 126
  · have range : 33 ≤ octet ∧ octet ≤ 126 := by
      simpa only [UInt8.le_iff_toNat_le, UInt8.reduceToNat] using printable
    rw [if_pos range]
    exact .inl ⟨printable.1, printable.2, rfl⟩
  · have range : ¬ (33 ≤ octet ∧ octet ≤ 126) := by
      simpa only [UInt8.le_iff_toNat_le, UInt8.reduceToNat] using printable
    rw [if_neg range]
    refine .inr ⟨printable, ?_⟩
    dsimp only
    rw [← first]

theorem displayOctet_ne_nil (octet : UInt8) : displayOctet octet ≠ [] := by
  unfold displayOctet
  split_ifs <;> exact List.cons_ne_nil _ _

/-- An octet is displayed as itself or with a backslash and digits. -/
theorem displayOctet_forall {octet : UInt8} (holds : Char → Prop) (escape : holds '\\')
    (digit : ∀ value : Nat, holds (Nat.digitChar (value % 10)))
    (plain : 33 ≤ octet.toNat → octet.toNat ≤ 126 → holds (Char.ofNat octet.toNat)) :
    ∀ c ∈ displayOctet octet, holds c := by
  by_cases dot : octet = 46
  · subst dot
    have point : holds '.' := plain (by decide) (by decide)
    exact List.forall_mem_cons.mpr ⟨escape, List.forall_mem_singleton.mpr point⟩
  · rcases displayOctet_cases dot with ⟨low, high, shown⟩ | ⟨_, shown⟩
    · rw [shown]
      exact List.forall_mem_singleton.mpr (plain low high)
    · simp [shown, escape, digit]

theorem displayOctet_noDot {octet : UInt8} (other : octet ≠ 46) : '.' ∉ displayOctet octet := by
  intro dot
  refine displayOctet_forall (· ≠ '.') (by decide) digitChar_ne_dot
    (fun _ high same => ?_) _ dot rfl
  have value := congrArg Char.toNat same
  rw [ofNat_toNat_ascii octet.toNat (by omega)] at value
  exact other (UInt8.toNat_inj.mp value)

theorem displayOctet_visible (octet : UInt8) :
    ∀ c ∈ displayOctet octet, 33 ≤ c.toNat ∧ c.toNat ≤ 126 := by
  refine displayOctet_forall _ (by decide) (fun value => ?_) fun low high => ?_
  · have each : ∀ digit : Fin 10, 33 ≤ (Nat.digitChar digit.val).toNat ∧
        (Nat.digitChar digit.val).toNat ≤ 126 := by decide
    exact each ⟨value % 10, Nat.mod_lt _ (by decide)⟩
  · rw [ofNat_toNat_ascii octet.toNat (by omega)]
    exact ⟨low, high⟩

theorem displayChars_forall {name : DnsName} (holds : Char → Prop) (dot : holds '.')
    (octets : ∀ label ∈ name.labels, ∀ octet ∈ label, ∀ c ∈ displayOctet octet, holds c) :
    ∀ c ∈ name.displayChars, holds c := by
  unfold displayChars
  split
  · exact List.forall_mem_singleton.mpr dot
  intro c member
  obtain ⟨label, inside, shown⟩ := List.mem_flatMap.mp member
  rcases List.mem_append.mp shown with written | last
  · obtain ⟨octet, among, written⟩ := List.mem_flatMap.mp written
    exact octets label inside octet among c written
  · rw [List.mem_singleton.mp last]
    exact dot

theorem displayLabel_noDot {label : Label} (plain : 46 ∉ label) :
    '.' ∉ label.flatMap displayOctet := by
  intro member
  obtain ⟨octet, inside, dot⟩ := List.mem_flatMap.mp member
  refine displayOctet_noDot ?_ dot
  intro same
  rw [same] at inside
  exact plain inside

theorem flatMap_dotted (pieces : List (List Char)) (some : pieces ≠ []) :
    (pieces.flatMap fun piece => piece ++ ['.']) = ['.'].intercalate pieces ++ ['.'] := by
  induction pieces with
  | nil => exact absurd rfl some
  | cons piece rest ih =>
    cases rest with
    | nil => simp [List.intercalate_singleton]
    | cons next rest =>
      rw [List.flatMap_cons, ih (List.cons_ne_nil _ _), List.intercalate_cons_cons]
      simp

theorem displayChars_of_labels {name : DnsName} (some : name.labels ≠ []) :
    name.displayChars =
      ['.'].intercalate (name.labels.map fun label => label.flatMap displayOctet) ++ ['.'] := by
  have filled : name.labels.isEmpty = false := by simpa using some
  rw [← flatMap_dotted _ (by simpa using some), List.flatMap_map, displayChars, filled]
  rfl

theorem displayChars_last (name : DnsName) : name.displayChars.getLast? = some '.' := by
  by_cases root : name.labels = []
  · rw [displayChars, root]
    rfl
  · rw [displayChars_of_labels root, List.getLast?_concat]

/-- `parse_str` of a displayed name: every label as it is spelled. -/
theorem parseStr_displayChars {name read : DnsName} (plain : ∀ label ∈ name.labels, 46 ∉ label)
    (labels : read.labels = name.labels.map spelled) :
    parseStr (String.ofList name.displayChars) = .ok read := by
  unfold parseStr
  rw [String.toList_ofList]
  dsimp only
  rw [if_pos name.displayChars_last]
  by_cases empty : name.labels = []
  · have onlyDot : name.displayChars = ['.'] := by
      rw [displayChars, empty]
      rfl
    rw [onlyDot]
    have same : read = root := DnsName.ext (by rw [labels, empty]; rfl)
    rw [same]
    rfl
  · rw [displayChars_of_labels empty, List.dropLast_concat]
    have pieces : ∀ piece ∈ name.labels.map (fun label => label.flatMap displayOctet),
        '.' ∉ piece := by
      intro piece member
      obtain ⟨label, inside, rfl⟩ := List.mem_map.mp member
      exact displayLabel_noDot (plain label inside)
    have split := List.splitOn_intercalate '.' pieces (by simpa using empty)
    have filled : (['.'].intercalate
        (name.labels.map fun label => label.flatMap displayOctet)).isEmpty = false := by
      obtain ⟨label, rest, shape⟩ := List.exists_cons_of_ne_nil empty
      have valid := (name.valid.1 label (by rw [shape]; exact List.mem_cons_self)).1
      obtain ⟨octet, octets, rfl⟩ := List.exists_cons_of_length_pos valid
      obtain ⟨c, chars, shown⟩ := List.exists_cons_of_ne_nil (displayOctet_ne_nil octet)
      rw [shape]
      cases rest with
      | nil => simp [List.intercalate_singleton, shown]
      | cons next rest => simp [List.intercalate_cons_cons, shown]
    rw [filled, split, if_neg Bool.false_ne_true, fromLabels_eq_ok_iff, labels, List.map_map]
    rfl

theorem parseStr_below {label : List Char} {apex read : DnsName} (bare : '.' ∉ label)
    (named : apex.labels ≠ []) (plain : ∀ label ∈ apex.labels, 46 ∉ label)
    (labels : read.labels = lowerLabel (utf8 label) :: apex.labels.map spelled) :
    parseStr (String.ofList (label ++ '.' :: apex.displayChars)) = .ok read := by
  have last : (label ++ '.' :: apex.displayChars).getLast? = some '.' := by
    rw [List.getLast?_append, List.getLast?_cons, apex.displayChars_last]
    rfl
  have inner : (label ++ '.' :: apex.displayChars).dropLast =
      label ++ '.' :: ['.'].intercalate
        (apex.labels.map fun label => label.flatMap displayOctet) := by
    rw [displayChars_of_labels named, ← List.cons_append, ← List.append_assoc,
      List.dropLast_concat]
  have pieces : ∀ piece ∈ apex.labels.map (fun label => label.flatMap displayOctet),
      '.' ∉ piece := by
    intro piece member
    obtain ⟨label, inside, rfl⟩ := List.mem_map.mp member
    exact displayLabel_noDot (plain label inside)
  have filled : (label ++ '.' :: ['.'].intercalate
      (apex.labels.map fun label => label.flatMap displayOctet)).isEmpty = false := by simp
  unfold parseStr
  rw [String.toList_ofList]
  dsimp only
  rw [if_pos last, inner, filled, if_neg Bool.false_ne_true, fromLabels_eq_ok_iff,
    splitOn_label bare, List.splitOn_intercalate '.' pieces (by simpa using named), labels,
    List.map_cons, List.map_map]
  rfl

def PrintableLabel (label : Label) : Prop :=
  ∀ octet ∈ label, 33 ≤ octet.toNat ∧ octet.toNat ≤ 126 ∧ octet ≠ 46

theorem spelled_of_printable {label : Label} (printable : PrintableLabel label) :
    spelled label = lowerLabel label := by
  have same : utf8 (label.flatMap displayOctet) = label := by
    induction label with
    | nil => rfl
    | cons octet rest ih =>
      obtain ⟨low, high, other⟩ := printable octet List.mem_cons_self
      have shown : displayOctet octet = [Char.ofNat octet.toNat] := by
        rcases displayOctet_cases other with ⟨_, _, shown⟩ | ⟨outside, _⟩
        · exact shown
        · exact absurd ⟨low, high⟩ outside
      have encoded : String.utf8EncodeChar (Char.ofNat octet.toNat) = [octet] := by
        have value : (Char.ofNat octet.toNat).val.toNat = octet.toNat :=
          ofNat_toNat_ascii octet.toNat (by omega)
        unfold String.utf8EncodeChar
        dsimp only
        rw [value, if_pos (by omega), UInt8.ofNat_toNat]
      have later := ih fun other member => printable other (List.mem_cons_of_mem _ member)
      rw [List.flatMap_cons, shown]
      change String.utf8EncodeChar _ ++ utf8 (rest.flatMap displayOctet) = _
      rw [encoded, later]
      rfl
  rw [spelled, same]

def PlainLabel (label : Label) : Prop :=
  (∀ octet ∈ label, 33 ≤ octet.toNat ∧ octet.toNat ≤ 126 ∧ octet ≠ 46) ∧ lowerLabel label = label

theorem spelled_of_plain {label : Label} (plain : PlainLabel label) : spelled label = label := by
  obtain ⟨printable, lowercase⟩ := plain
  rw [spelled_of_printable printable, lowercase]

end DnsName

end Rdns.Proto
