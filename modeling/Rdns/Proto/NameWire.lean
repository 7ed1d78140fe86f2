import Rdns.Lib.Codec
import Rdns.Lib.HashMap
import Rdns.Proto.Name

/-!
# Names on the wire

`DnsName::from_wire` and `DnsName::to_wire` with their compression pointers.
`Spells` is the RFC 1035 grammar of a name at an offset; the decoder accepts
exactly the spellings within its two limits, at most 64 pointers and at most
255 uncompressed octets.
-/

set_option autoImplicit false

namespace Rdns.Proto

open Rdns.Lib

variable {buf : Bytes} {pos jumps finish : Nat} {labels : List Label}

def maxPointerJumps : Nat := 64

inductive WireError
  | truncated
  | badLabel
  | nameTooLong
  | compressionLoop
  | badRdata
deriving DecidableEq, Repr

def WireError.display : WireError → String
  | .truncated => "message truncated"
  | .badLabel => "unsupported label type"
  | .nameTooLong => "name too long"
  | .compressionLoop => "compression pointer loop"
  | .badRdata => "malformed rdata"

abbrev Parse (α : Type) := Reader WireError α

def slice (buf : Bytes) (start count : Nat) : Option Bytes :=
  if start + count ≤ buf.length then some ((buf.drop start).take count) else none

def pointerTarget (high low : UInt8) : Nat := ((high.toNat &&& 0x3F) <<< 8) ||| low.toNat

/-- The loop of `from_wire`.  Every round ends, follows one more pointer or
lengthens the name, so `decodeFuel` rounds are never used up (`decode_ends`). -/
def decodeLoop (buf : Bytes) :
    Nat → Nat → Option Nat → Nat → Nat → List Label → Except WireError (List Label × Nat)
  | 0, _, _, _, _, _ => .error .compressionLoop
  | fuel + 1, cur, endOfName, jumps, wireLen, labels =>
    match buf[cur]? with
    | none => .error .truncated
    | some len =>
      if len = 0 then .ok (labels, endOfName.getD (cur + 1))
      else if len &&& 0xC0 = 0xC0 then
        match buf[cur + 1]? with
        | none => .error .truncated
        | some low =>
          let target := pointerTarget len low
          let endOfName := some (endOfName.getD (cur + 2))
          if target ≥ cur then .error .compressionLoop
          else if jumps + 1 > maxPointerJumps then .error .compressionLoop
          else decodeLoop buf fuel target endOfName (jumps + 1) wireLen labels
      else if len.toNat ≤ maxLabelLen then
        match slice buf (cur + 1) len.toNat with
        | none => .error .truncated
        | some label =>
          if wireLen + len.toNat + 1 > maxNameWireLen then .error .nameTooLong
          else decodeLoop buf fuel (cur + 1 + len.toNat) endOfName jumps
            (wireLen + len.toNat + 1) (labels ++ [lowerLabel label])
      else .error .badLabel

def decodeFuel : Nat := maxPointerJumps + maxNameWireLen + 1

/-- The name starting at `pos` in `buf` is spelled by these raw labels through
`jumps` pointers; `finish` is just past the name where it starts. -/
inductive Spells (buf : Bytes) : Nat → List Label → Nat → Nat → Prop
  | root {pos : Nat} (zero : buf[pos]? = some 0) : Spells buf pos [] 0 (pos + 1)
  | label {pos : Nat} {len : UInt8} {label : Label} {rest : List Label} {jumps finish : Nat}
      (head : buf[pos]? = some len) (positive : len ≠ 0) (short : len.toNat ≤ maxLabelLen)
      (octets : slice buf (pos + 1) len.toNat = some label)
      (tail : Spells buf (pos + 1 + len.toNat) rest jumps finish) :
      Spells buf pos (label :: rest) jumps finish
  | pointer {pos : Nat} {high low : UInt8} {labels : List Label} {jumps finish : Nat}
      (head : buf[pos]? = some high) (bits : high &&& 0xC0 = 0xC0)
      (second : buf[pos + 1]? = some low) (backward : pointerTarget high low < pos)
      (tail : Spells buf (pointerTarget high low) labels jumps finish) :
      Spells buf pos labels (jumps + 1) (pos + 2)

theorem slice_length {start count : Nat} {octets : Bytes}
    (found : slice buf start count = some octets) : octets.length = count := by
  unfold slice at found
  split at found
  · cases found
    simp only [List.length_take, List.length_drop]
    omega
  · cases found

theorem slice_append {start count : Nat} {octets : Bytes} (more : Bytes)
    (found : slice buf start count = some octets) :
    slice (buf ++ more) start count = some octets := by
  unfold slice at found ⊢
  split at found
  · rename_i inside
    have wider : start + count ≤ (buf ++ more).length := by
      rw [List.length_append]
      omega
    cases found
    rw [if_pos wider, List.drop_append_of_le_length (by omega),
      List.take_append_of_le_length (by simp only [List.length_drop]; omega)]
  · cases found

theorem slice_exact (out octets rest : Bytes) :
    slice (out ++ octets ++ rest) out.length octets.length = some octets := by
  unfold slice
  rw [if_pos (by simp), List.append_assoc, List.drop_left, List.take_left]

theorem label_not_pointer (len : UInt8) (short : len.toNat ≤ maxLabelLen) :
    ¬ len &&& 0xC0 = 0xC0 := by
  intro bits
  have upper := congrArg UInt8.toNat bits
  simp only [UInt8.toNat_and] at upper
  have small : len.toNat &&& 192 = 0 := by
    have bound : len.toNat < 64 := by
      unfold maxLabelLen at short
      omega
    generalize len.toNat = n at bound
    revert n
    decide
  have same : len.toNat &&& 192 = 192 := upper
  omega

theorem pointer_not_zero (high : UInt8) (bits : high &&& 0xC0 = 0xC0) : high ≠ 0 := by
  rintro rfl
  revert bits
  decide

theorem Spells.append (spelled : Spells buf pos labels jumps finish) (more : Bytes) :
    Spells (buf ++ more) pos labels jumps finish := by
  have kept : ∀ {index : Nat} {octet : UInt8}, buf[index]? = some octet →
      (buf ++ more)[index]? = some octet := by
    intro index octet found
    rw [List.getElem?_append_left (List.getElem?_eq_some_iff.mp found).1]
    exact found
  induction spelled with
  | root zero => exact .root (kept zero)
  | label head positive short octets _ ih =>
    exact .label (kept head) positive short (slice_append more octets) ih
  | pointer head bits second backward _ ih =>
    exact .pointer (kept head) bits (kept second) backward ih

theorem Spells.unique {jumps' finish' : Nat} {labels' : List Label}
    (left : Spells buf pos labels jumps finish) (right : Spells buf pos labels' jumps' finish') :
    labels = labels' ∧ jumps = jumps' ∧ finish = finish' := by
  induction left generalizing labels' jumps' finish' with
  | root zero =>
    cases right with
    | root _ => exact ⟨rfl, rfl, rfl⟩
    | label head positive _ _ _ =>
      rw [zero] at head
      exact absurd (Option.some.inj head).symm positive
    | pointer head bits _ _ _ =>
      rw [zero] at head
      exact absurd (Option.some.inj head).symm (pointer_not_zero _ bits)
  | label head positive short octets _ ih =>
    cases right with
    | root zero =>
      rw [head] at zero
      exact absurd (Option.some.inj zero) positive
    | label head' _ _ octets' tail' =>
      rw [head] at head'
      cases head'
      rw [octets] at octets'
      cases octets'
      obtain ⟨rfl, rfl, rfl⟩ := ih tail'
      exact ⟨rfl, rfl, rfl⟩
    | pointer head' bits _ _ _ =>
      rw [head] at head'
      cases head'
      exact absurd bits (label_not_pointer _ short)
  | pointer head bits second _ _ ih =>
    cases right with
    | root zero =>
      rw [head] at zero
      exact absurd (Option.some.inj zero) (pointer_not_zero _ bits)
    | label head' _ short _ _ =>
      rw [head] at head'
      cases head'
      exact absurd bits (label_not_pointer _ short)
    | pointer head' _ second' _ tail' =>
      rw [head] at head'
      cases head'
      rw [second] at second'
      cases second'
      obtain ⟨rfl, rfl, _⟩ := ih tail'
      exact ⟨rfl, rfl, rfl⟩

theorem Spells.valid (spelled : Spells buf pos labels jumps finish) :
    ∀ label ∈ labels, ValidLabel label := by
  induction spelled with
  | root _ => simp
  | @label _ len label rest _ _ _ positive short octets _ ih =>
    intro other member
    rcases List.mem_cons.mp member with rfl | member
    · have length := slice_length octets
      have nonzero : len.toNat ≠ 0 := fun zero => positive (UInt8.toNat_inj.mp zero)
      exact ⟨by omega, by omega⟩
    · exact ih other member
  | pointer _ _ _ _ _ ih => exact ih

/-! ## The decoder and the grammar -/

theorem decodeLoop_of_spells {cur : Nat} (spelled : Spells buf cur labels jumps finish) :
    ∀ (fuel used wireLen : Nat) (endOfName : Option Nat) (acc : List Label),
      used + jumps ≤ maxPointerJumps → wireLen + labelsLen labels ≤ maxNameWireLen →
      jumps + labels.length < fuel →
      decodeLoop buf fuel cur endOfName used wireLen acc =
        .ok (acc ++ labels.map lowerLabel, endOfName.getD finish) := by
  induction spelled with
  | root zero =>
    intro fuel used wireLen endOfName acc _ _ enough
    cases fuel with
    | zero => omega
    | succ fuel => simp [decodeLoop, zero]
  | @label pos len label rest jumps finish head positive short octets _ ih =>
    intro fuel used wireLen endOfName acc few fits enough
    cases fuel with
    | zero => omega
    | succ fuel =>
      have length := slice_length octets
      simp only [labelsLen_cons, List.length_cons] at fits enough
      have notLong : ¬ wireLen + len.toNat + 1 > maxNameWireLen := by omega
      simp only [decodeLoop, head, if_neg positive, if_neg (label_not_pointer len short),
        if_pos short, octets, if_neg notLong]
      rw [ih fuel used (wireLen + len.toNat + 1) endOfName (acc ++ [lowerLabel label]) few
        (by omega) (by omega)]
      simp
  | @pointer pos high low labels jumps finish head bits second backward _ ih =>
    intro fuel used wireLen endOfName acc few fits enough
    cases fuel with
    | zero => omega
    | succ fuel =>
      have notForward : ¬ pointerTarget high low ≥ pos := by omega
      have notMany : ¬ used + 1 > maxPointerJumps := by omega
      simp only [decodeLoop, head, if_neg (pointer_not_zero high bits), if_pos bits, second,
        if_neg notForward, if_neg notMany]
      rw [ih fuel (used + 1) wireLen (some (endOfName.getD (pos + 2))) acc (by omega) fits
        (by omega)]
      rfl

theorem spells_of_decodeLoop :
    ∀ (fuel cur used wireLen : Nat) (endOfName : Option Nat) (acc result : List Label)
      (pos : Nat), used ≤ maxPointerJumps → wireLen ≤ maxNameWireLen →
      decodeLoop buf fuel cur endOfName used wireLen acc = .ok (result, pos) →
      ∃ labels jumps finish, Spells buf cur labels jumps finish ∧
        result = acc ++ labels.map lowerLabel ∧ pos = endOfName.getD finish ∧
        used + jumps ≤ maxPointerJumps ∧ wireLen + labelsLen labels ≤ maxNameWireLen := by
  intro fuel
  induction fuel with
  | zero => intro cur used wireLen endOfName acc result pos _ _ run; simp [decodeLoop] at run
  | succ fuel ih =>
    intro cur used wireLen endOfName acc result pos few fits run
    simp only [decodeLoop] at run
    cases head : buf[cur]? with
    | none => simp [head] at run
    | some len =>
      simp only [head] at run
      by_cases zero : len = 0
      · subst zero
        simp only [if_true, Except.ok.injEq, Prod.mk.injEq] at run
        obtain ⟨rfl, rfl⟩ := run
        exact ⟨[], 0, cur + 1, .root head, by simp, rfl, by omega, by simpa using fits⟩
      · rw [if_neg zero] at run
        by_cases bits : len &&& 0xC0 = 0xC0
        · rw [if_pos bits] at run
          cases second : buf[cur + 1]? with
          | none => simp [second] at run
          | some low =>
            simp only [second] at run
            split_ifs at run with forward many
            obtain ⟨labels, jumps, finish, spelled, shape, position, budget, length⟩ :=
              ih _ _ _ _ _ _ _ (by omega) fits run
            exact ⟨labels, jumps + 1, cur + 2,
              .pointer head bits second (by omega) spelled, shape, position,
              by omega, length⟩
        · rw [if_neg bits] at run
          by_cases short : len.toNat ≤ maxLabelLen
          · rw [if_pos short] at run
            cases octets : slice buf (cur + 1) len.toNat with
            | none => simp [octets] at run
            | some label =>
              simp only [octets] at run
              split_ifs at run with long
              obtain ⟨labels, jumps, finish, spelled, shape, position, budget, length⟩ :=
                ih _ _ _ _ _ _ _ few (by omega) run
              have size := slice_length octets
              refine ⟨label :: labels, jumps, finish,
                .label head zero short octets spelled, by simp [shape], position, budget, ?_⟩
              simp only [labelsLen_cons]
              omega
          · rw [if_neg short] at run
            cases run

theorem decodeLoop_valid {pos' : Nat}
    (decoded : decodeLoop buf decodeFuel pos none 0 1 [] = .ok (labels, pos')) :
    ValidLabels labels := by
  obtain ⟨raw, _, _, spelled, shape, _, _, length⟩ :=
    spells_of_decodeLoop decodeFuel pos 0 1 none [] labels pos' (by decide) (by decide) decoded
  rw [shape, List.nil_append, validLabels_lower]
  exact ⟨spelled.valid, by omega⟩

def DnsName.fromWire (buf : Bytes) : Parse DnsName := fun pos =>
  match decoded : decodeLoop buf decodeFuel pos none 0 1 [] with
  | .error e => .error e
  | .ok (labels, pos') => .ok (⟨labels, decodeLoop_valid decoded⟩, pos')

theorem labels_length_le (labels : List Label) : labels.length ≤ labelsLen labels := by
  induction labels with
  | nil => simp
  | cons label rest ih => simp only [List.length_cons, labelsLen_cons]; omega

/-- The decoder accepts exactly the spellings within its limits. -/
theorem fromWire_eq_ok_iff (buf : Bytes) (pos pos' : Nat) (name : DnsName) :
    DnsName.fromWire buf pos = .ok (name, pos') ↔
      ∃ labels jumps, Spells buf pos labels jumps pos' ∧ jumps ≤ maxPointerJumps ∧
        labelsLen labels + 1 ≤ maxNameWireLen ∧ name.labels = labels.map lowerLabel := by
  constructor
  · intro success
    unfold DnsName.fromWire at success
    split at success
    · cases success
    rename_i labels finish decoded
    cases success
    obtain ⟨raw, jumps, finish, spelled, shape, position, budget, length⟩ :=
      spells_of_decodeLoop decodeFuel pos 0 1 none [] labels pos' (by decide) (by decide) decoded
    have same : pos' = finish := position
    subst same
    exact ⟨raw, jumps, spelled, by omega, by omega, shape⟩
  · rintro ⟨labels, jumps, spelled, budget, length, same⟩
    have size := labels_length_le labels
    have run := decodeLoop_of_spells spelled decodeFuel 0 1 none [] (by omega) (by omega)
      (by unfold decodeFuel; omega)
    have shape : ([] : List Label) ++ labels.map lowerLabel = name.labels := same.symm
    rw [shape] at run
    unfold DnsName.fromWire
    split
    · rename_i e failed
      rw [run] at failed
      cases failed
    · rename_i decodedLabels finish decoded
      rw [run] at decoded
      cases decoded
      rfl

/-! ## Names cut short -/

theorem slice_take {start count cut : Nat} {octets : Bytes}
    (found : slice buf start count = some octets) (inside : start + count ≤ cut) :
    slice (buf.take cut) start count = some octets := by
  unfold slice at found ⊢
  split at found
  · cases found
    rw [if_pos (by rw [List.length_take]; omega), List.drop_take, List.take_take,
      Nat.min_eq_left (by omega)]
  · cases found

theorem slice_take_none {start count cut : Nat} (short : cut < start + count) :
    slice (buf.take cut) start count = none := by
  unfold slice
  rw [if_neg (by rw [List.length_take]; omega)]

/-- The octets of a name at its own place are read before its first pointer is
followed, so a cut inside them is met first. -/
theorem decodeLoop_cut {cur : Nat} (spelled : Spells buf cur labels jumps finish) (cut : Nat)
    (short : cut < finish) :
    ∀ (fuel used wireLen : Nat) (acc : List Label), cur ≤ cut →
      wireLen + labelsLen labels ≤ maxNameWireLen → labels.length < fuel →
      decodeLoop (buf.take cut) fuel cur none used wireLen acc = .error .truncated := by
  -- The cursor stands at the cut: there is no octet left.
  have exhausted : ∀ (fuel used wireLen : Nat) (acc : List Label),
      decodeLoop (buf.take cut) (fuel + 1) cut none used wireLen acc = .error .truncated := by
    intro fuel used wireLen acc
    have missing : (buf.take cut)[cut]? = none :=
      List.getElem?_eq_none (by rw [List.length_take]; omega)
    simp only [decodeLoop, missing]
  have kept : ∀ {index : Nat} {octet : UInt8}, index < cut → buf[index]? = some octet →
      (buf.take cut)[index]? = some octet := by
    intro index octet before found
    rw [List.getElem?_take_of_lt before]
    exact found
  induction spelled with
  | @root pos zero =>
    intro fuel used wireLen acc reached _ enough
    obtain ⟨rest, rfl⟩ := Nat.exists_eq_succ_of_ne_zero (Nat.ne_of_gt enough)
    have here : pos = cut := by omega
    rw [here]
    exact exhausted rest used wireLen acc
  | @label pos len label rest jumps finish head positive few octets _ ih =>
    intro fuel used wireLen acc reached fits enough
    cases fuel with
    | zero => exact absurd enough (Nat.not_lt_zero _)
    | succ fuel =>
      rcases Nat.eq_or_lt_of_le reached with here | before
      · rw [here]
        exact exhausted fuel used wireLen acc
      · have length := slice_length octets
        simp only [labelsLen_cons, List.length_cons] at fits enough
        simp only [decodeLoop, kept before head, if_neg positive,
          if_neg (label_not_pointer len few), if_pos few]
        by_cases inside : pos + 1 + len.toNat ≤ cut
        · have notLong : ¬ wireLen + len.toNat + 1 > maxNameWireLen := by omega
          simp only [slice_take octets inside, if_neg notLong]
          exact ih short fuel used _ _ inside (by omega) (by omega)
        · simp only [slice_take_none (Nat.lt_of_not_le inside)]
  | @pointer pos high low labels jumps finish head bits second backward _ _ =>
    intro fuel used wireLen acc reached _ enough
    obtain ⟨rest, rfl⟩ := Nat.exists_eq_succ_of_ne_zero (Nat.ne_of_gt
      (Nat.lt_of_le_of_lt (Nat.zero_le _) enough))
    rcases Nat.eq_or_lt_of_le reached with here | before
    · rw [here]
      exact exhausted rest used wireLen acc
    · have missing : (buf.take cut)[pos + 1]? = none :=
        List.getElem?_eq_none (by rw [List.length_take]; omega)
      simp only [decodeLoop, kept before head, if_neg (pointer_not_zero high bits), if_pos bits,
        missing]

theorem fromWire_cut {cut : Nat} {name : DnsName}
    (spelled : Spells buf pos name.labels jumps finish) (reached : pos ≤ cut)
    (short : cut < finish) : DnsName.fromWire (buf.take cut) pos = .error .truncated := by
  have length : labelsLen name.labels + 1 ≤ maxNameWireLen := name.valid.2
  have few := labels_length_le name.labels
  have run := decodeLoop_cut spelled cut short decodeFuel 0 1 [] reached (by omega)
    (by unfold decodeFuel; omega)
  unfold DnsName.fromWire
  split
  · rename_i error failed
    rw [run] at failed
    cases failed
    rfl
  · rename_i labels finish decoded
    rw [run] at decoded
    cases decoded

/-! ## The encoder -/

/-- Suffix to offset, shared across one encoded message. -/
structure Compressor where
  offsets : HashMap (List Label) UInt16

def Compressor.default : Compressor := ⟨HashMap.empty⟩

def maxPointerOffset : Nat := 0x3FFF

def toWireLoop : List Label → Bytes → Option Compressor → Bytes × Option Compressor
  | [], out, compressor => (out ++ [0], compressor)
  | label :: rest, out, none =>
    toWireLoop rest (out ++ (UInt8.ofNat label.length :: label)) none
  | label :: rest, out, some compressor =>
    match compressor.offsets.get? (label :: rest) with
    | some offset => (out ++ toBe16 (0xC000 ||| offset), some compressor)
    | none =>
      let compressor :=
        if out.length ≤ maxPointerOffset then
          ⟨compressor.offsets.insert (label :: rest) (UInt16.ofNat out.length)⟩
        else compressor
      toWireLoop rest (out ++ (UInt8.ofNat label.length :: label)) (some compressor)

def DnsName.toWire (name : DnsName) (out : Bytes) (compressor : Option Compressor) :
    Bytes × Option Compressor :=
  toWireLoop name.labels out compressor

end Rdns.Proto
