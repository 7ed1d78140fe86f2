import Rdns.Lib.Iterate
import Rdns.Proto.NameWire

/-!
# The loop of the name decoder

`DnsName::from_wire` once more as the source has it: a loop over local variables that
nothing counts, and a position that belongs to the caller.  A round reads forward or
jumps back, so that the offset says nothing about the end; the jumps and the length of
the name do, which only grow and are bounded.  The loop with a bound on its rounds is
the same function.
-/

set_option autoImplicit false

namespace Rdns.Proto

open Rdns.Lib

variable {buf : Bytes} {pos : Nat}

structure Frame where
  cur : Nat
  endOfName : Option Nat
  jumps : Nat
  wireLen : Nat
  labels : List Label

def Frame.start (pos : Nat) : Frame := ⟨pos, none, 0, 1, []⟩

abbrev Decoded := Except WireError (List Label × Nat)

def decodeRound (buf : Bytes) (frame : Frame) : Frame ⊕ Decoded :=
  match buf[frame.cur]? with
  | none => .inr (.error .truncated)
  | some len =>
    if len = 0 then .inr (.ok (frame.labels, frame.endOfName.getD (frame.cur + 1)))
    else if len &&& 0xC0 = 0xC0 then
      match buf[frame.cur + 1]? with
      | none => .inr (.error .truncated)
      | some low =>
        let target := pointerTarget len low
        if target ≥ frame.cur then .inr (.error .compressionLoop)
        else if frame.jumps + 1 > maxPointerJumps then .inr (.error .compressionLoop)
        else .inl { frame with
          cur := target
          endOfName := some (frame.endOfName.getD (frame.cur + 2))
          jumps := frame.jumps + 1 }
    else if len.toNat ≤ maxLabelLen then
      match slice buf (frame.cur + 1) len.toNat with
      | none => .inr (.error .truncated)
      | some label =>
        if frame.wireLen + len.toNat + 1 > maxNameWireLen then .inr (.error .nameTooLong)
        else .inl { frame with
          cur := frame.cur + 1 + len.toNat
          wireLen := frame.wireLen + len.toNat + 1
          labels := frame.labels ++ [lowerLabel label] }
    else .inr (.error .badLabel)

/-- The two limits, which every round checks before it goes on. -/
structure Frame.Within (frame : Frame) : Prop where
  jumps : frame.jumps ≤ maxPointerJumps
  length : frame.wireLen ≤ maxNameWireLen

def Frame.room (frame : Frame) : Nat :=
  (maxPointerJumps - frame.jumps) + (maxNameWireLen - frame.wireLen)

theorem start_within (pos : Nat) : (Frame.start pos).Within :=
  ⟨Nat.zero_le _, (by decide : 1 ≤ maxNameWireLen)⟩

theorem decodeRound_counts {frame frame' : Frame} (within : frame.Within)
    (more : decodeRound buf frame = .inl frame') : frame'.Within ∧ frame'.room < frame.room := by
  obtain ⟨few, short⟩ := within
  unfold decodeRound at more
  split at more
  · cases more
  rename_i len head
  by_cases zero : len = 0
  · rw [if_pos zero] at more
    cases more
  rw [if_neg zero] at more
  by_cases bits : len &&& 0xC0 = 0xC0
  · rw [if_pos bits] at more
    split at more
    · cases more
    dsimp only at more
    split_ifs at more with forward many
    cases more
    refine ⟨⟨Nat.le_of_not_lt many, short⟩, ?_⟩
    simp only [Frame.room]
    omega
  · rw [if_neg bits] at more
    by_cases small : len.toNat ≤ maxLabelLen
    · rw [if_pos small] at more
      split at more
      · cases more
      split_ifs at more with long
      cases more
      refine ⟨⟨few, Nat.le_of_not_lt long⟩, ?_⟩
      simp only [Frame.room]
      omega
    · rw [if_neg small] at more
      cases more

def decodeFrom (buf : Bytes) (fuel : Nat) (frame : Frame) : Decoded :=
  decodeLoop buf fuel frame.cur frame.endOfName frame.jumps frame.wireLen frame.labels

theorem decodeFrom_succ (buf : Bytes) (fuel : Nat) (frame : Frame) :
    decodeFrom buf (fuel + 1) frame = (decodeRound buf frame).elim (decodeFrom buf fuel) id := by
  rw [decodeFrom, decodeLoop, decodeRound]
  cases buf[frame.cur]? with
  | none => rfl
  | some len =>
    dsimp only
    by_cases zero : len = 0
    · rw [if_pos zero, if_pos zero]
      rfl
    rw [if_neg zero, if_neg zero]
    by_cases bits : len &&& 0xC0 = 0xC0
    · rw [if_pos bits, if_pos bits]
      cases buf[frame.cur + 1]? with
      | none => rfl
      | some low =>
        dsimp only
        split_ifs <;> rfl
    · rw [if_neg bits, if_neg bits]
      by_cases small : len.toNat ≤ maxLabelLen
      · rw [if_pos small, if_pos small]
        cases slice buf (frame.cur + 1) len.toNat with
        | none => rfl
        | some label =>
          dsimp only
          split_ifs <;> rfl
      · rw [if_neg small, if_neg small]
        rfl

theorem decodeFrom_of_ends {frame : Frame} {result : Decoded}
    (ends : Ends (decodeRound buf) frame result) (within : frame.Within) :
    ∀ fuel, frame.room < fuel → decodeFrom buf fuel frame = result := by
  induction ends with
  | stop last =>
    intro fuel enough
    obtain ⟨fuel, rfl⟩ : ∃ less, fuel = less + 1 := ⟨fuel - 1, by omega⟩
    rw [decodeFrom_succ, last]
    rfl
  | next more _ ih =>
    intro fuel enough
    obtain ⟨fuel, rfl⟩ : ∃ less, fuel = less + 1 := ⟨fuel - 1, by omega⟩
    obtain ⟨still, fewer⟩ := decodeRound_counts within more
    rw [decodeFrom_succ, more]
    exact ih still fuel (by omega)

theorem decode_ends (buf : Bytes) (pos : Nat) :
    Ends (decodeRound buf) (Frame.start pos) (decodeLoop buf decodeFuel pos none 0 1 []) := by
  have counts : ∀ {frame frame' : Frame}, frame.Within → decodeRound buf frame = .inl frame' →
      frame'.Within ∧ frame'.room < frame.room := decodeRound_counts
  obtain ⟨result, ends⟩ := ends_of_measure counts (start_within pos)
  have enough : (Frame.start pos).room < decodeFuel := by
    change maxPointerJumps - 0 + (maxNameWireLen - 1) < decodeFuel
    decide
  have computed := decodeFrom_of_ends ends (start_within pos) decodeFuel enough
  rw [← computed] at ends
  exact ends

/-! ## The position -/

/-- `from_wire` with the caller's position, which is written once, at the end. -/
def DnsName.fromWireAt (buf : Bytes) (pos : Nat) : Except WireError DnsName × Nat :=
  match decoded : decodeLoop buf decodeFuel pos none 0 1 [] with
  | .error e => (.error e, pos)
  | .ok (labels, finish) => (.ok ⟨labels, decodeLoop_valid decoded⟩, finish)

theorem fromWireAt_of_ok {finish : Nat} {name : DnsName}
    (read : DnsName.fromWire buf pos = .ok (name, finish)) :
    DnsName.fromWireAt buf pos = (.ok name, finish) := by
  unfold DnsName.fromWireAt
  split
  · rename_i e failed
    unfold DnsName.fromWire at read
    split at read
    · cases read
    · rename_i labels finish' decoded
      rw [failed] at decoded
      cases decoded
  · rename_i labels finish' decoded
    unfold DnsName.fromWire at read
    split at read
    · cases read
    rename_i labels' finish'' decoded'
    cases read
    rw [decoded] at decoded'
    cases decoded'
    rfl

theorem fromWireAt_of_error {e : WireError} (failed : DnsName.fromWire buf pos = .error e) :
    DnsName.fromWireAt buf pos = (.error e, pos) := by
  unfold DnsName.fromWireAt
  split
  · rename_i e' decoded
    unfold DnsName.fromWire at failed
    split at failed
    · rename_i e'' decoded'
      cases failed
      rw [decoded] at decoded'
      cases decoded'
      rfl
    · cases failed
  · rename_i labels finish decoded
    unfold DnsName.fromWire at failed
    split at failed
    · rename_i e' decoded'
      rw [decoded] at decoded'
      cases decoded'
    · cases failed

theorem Spells.finish_bounds {jumps finish : Nat} {labels : List Label}
    (spelled : Spells buf pos labels jumps finish) : pos < finish ∧ finish ≤ buf.length := by
  have inside : ∀ {index : Nat} {octet : UInt8}, buf[index]? = some octet → index < buf.length :=
    fun found => (List.getElem?_eq_some_iff.mp found).1
  induction spelled with
  | root zero =>
    have bound := inside zero
    omega
  | label head _ _ _ _ ih => omega
  | pointer _ _ second _ _ _ =>
    have bound := inside second
    omega

/-- The decoder ends on every buffer, accepts the names of the grammar within its limits
and leaves the position behind the name, or where it was. -/
theorem fromWireAt_exact (buf : Bytes) (pos : Nat) :
    Ends (decodeRound buf) (Frame.start pos) (decodeLoop buf decodeFuel pos none 0 1 []) ∧
      (∀ name, (DnsName.fromWireAt buf pos).1 = .ok name ↔
        ∃ labels jumps finish, Spells buf pos labels jumps finish ∧ jumps ≤ maxPointerJumps ∧
          labelsLen labels + 1 ≤ maxNameWireLen ∧ name.labels = labels.map lowerLabel) ∧
      (∀ name, (DnsName.fromWireAt buf pos).1 = .ok name →
        (∃ labels jumps, Spells buf pos labels jumps (DnsName.fromWireAt buf pos).2) ∧
          pos < (DnsName.fromWireAt buf pos).2 ∧
          (DnsName.fromWireAt buf pos).2 ≤ buf.length) ∧
      ∀ e, (DnsName.fromWireAt buf pos).1 = .error e → (DnsName.fromWireAt buf pos).2 = pos := by
  refine ⟨decode_ends buf pos, ?_⟩
  cases read : DnsName.fromWire buf pos with
  | error e =>
    rw [fromWireAt_of_error read]
    refine ⟨fun name => iff_of_false (fun same => by cases same) ?_, ?_, fun _ _ => rfl⟩
    · rintro ⟨labels, jumps, finish, spelled, few, short, lowered⟩
      have accepted := (fromWire_eq_ok_iff buf pos finish name).mpr
        ⟨labels, jumps, spelled, few, short, lowered⟩
      rw [read] at accepted
      cases accepted
    · intro name impossible
      cases impossible
  | ok result =>
    obtain ⟨name, finish⟩ := result
    rw [fromWireAt_of_ok read]
    obtain ⟨labels, jumps, spelled, few, short, lowered⟩ :=
      (fromWire_eq_ok_iff buf pos finish name).mp read
    refine ⟨fun other => ⟨?_, ?_⟩, fun _ _ => ⟨⟨labels, jumps, spelled⟩, spelled.finish_bounds⟩,
      fun e same => by cases same⟩
    · intro same
      cases same
      exact ⟨labels, jumps, finish, spelled, few, short, lowered⟩
    · rintro ⟨labels', jumps', finish', spelled', _, _, lowered'⟩
      obtain ⟨rfl, _, _⟩ := spelled.unique spelled'
      exact congrArg Except.ok (DnsName.ext (lowered.trans lowered'.symm))

end Rdns.Proto
