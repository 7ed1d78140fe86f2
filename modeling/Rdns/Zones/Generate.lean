import Rdns.Lib.Counter
import Rdns.Lib.Loops
import Rdns.Zones.File

/-!
# The range of `$GENERATE`

`expand_generate` reads the directive and then counts from the start of its range to
the end.  The check before the loop bounds the number of rounds, not the counter: the
round after the last one adds the step once more, in 64 bits.  Nor does anything bound the
width a template asks for, which `format!` holds in 16 bits.
-/

set_option autoImplicit false

namespace Rdns.Zones

open Rdns.Lib Rdns.Proto

structure GenRange where
  start : Int64
  stop : Int64
  step : Int64
  checked : ¬(step ≤ 0 ∨ stop < start ∨ (stop - start) / step > 1000000)

def readSpan (span : List Char) (step : Int64) (line : Nat) : Fallible ZoneError GenRange :=
  match splitOnce '-' span with
  | none => err line "$GENERATE range must be start-stop"
  | some (start, stop) => do
    let start ← parseI64 start line "$GENERATE start"
    let stop ← parseI64 stop line "$GENERATE stop"
    if checked : step ≤ 0 ∨ stop < start ∨ (stop - start) / step > 1000000 then
      err line "$GENERATE range is empty or too large"
    else .ok ⟨start, stop, step, checked⟩

def readRange (range : List Char) (line : Nat) : Fallible ZoneError GenRange :=
  match splitOnce '/' range with
  | some (span, step) => do
    let step ← parseI64 step line "$GENERATE step"
    readSpan span step line
  | none => readSpan range 1 line

structure Directive where
  range : GenRange
  lhs : List Char
  rhs : List Char
  rtype : String
  ttl : UInt32

def readDirective (toks : List Tok) (defaultTtl : UInt32) (line : Nat) :
    Fallible ZoneError Directive :=
  match toks with
  | _ :: range :: lhs :: rest => do
    let (ttl, rest) ← ttlAndClass line defaultTtl rest
    match rest with
    | [] => err line "$GENERATE needs a type"
    | rtype :: rest =>
      let range ← readRange range.text.toList line
      .ok { range, lhs := lhs.text.toList, rhs := spaced (rest.map fun tok => tok.text.toList)
            rtype := toAsciiUppercase rtype.text, ttl }
  | [_, _] => err line "$GENERATE needs an lhs"
  | _ => err line "$GENERATE needs a range"

/-! ## Templates -/

inductive GenPiece
  | char (c : Char)
  | iterator
  | field (spec : List Char)

namespace GenPiece

/-- The piece a template begins with, and what follows it. -/
def next (c : Char) (rest : List Char) : GenPiece × List Char :=
  if c ≠ '$' then (.char c, rest)
  else match rest.head?, splitOnce '\x7d' (rest.drop 1) with
    | some '\x7b', some (spec, after) => (.field spec, after)
    | _, _ => (.iterator, rest)

def allFrom : Nat → List Char → List GenPiece
  | 0, _ => []
  | _ + 1, [] => []
  | fuel + 1, c :: rest => (next c rest).1 :: allFrom fuel (next c rest).2

def text (value : Int64) : GenPiece → List Char
  | char c => [c]
  | iterator => displayInt value
  | field spec => genPadded spec value

def Narrow : GenPiece → Prop
  | field spec => genWidth spec ≤ 65535
  | _ => True

instance : DecidablePred Narrow
  | field spec => inferInstanceAs (Decidable (genWidth spec ≤ 65535))
  | char _ => inferInstanceAs (Decidable True)
  | iterator => inferInstanceAs (Decidable True)

def write {ε : Type} (value : Int64) (piece : GenPiece) : Fallible ε (List Char) :=
  if piece.Narrow then .ok (piece.text value) else .error .panicked

theorem next_dollar (rest : List Char) :
    (∃ spec after, rest.head? = some '\x7b' ∧ splitOnce '\x7d' (rest.drop 1) = some (spec, after) ∧
      next '$' rest = (.field spec, after)) ∨
    (∀ spec after, rest.head? = some '\x7b' →
      splitOnce '\x7d' (rest.drop 1) = some (spec, after) → False) ∧
      next '$' rest = (.iterator, rest) := by
  unfold next
  rw [if_neg (not_not.mpr rfl)]
  split
  · rename_i spec after opens closes
    exact .inl ⟨spec, after, opens, closes, rfl⟩
  · rename_i other
    exact .inr ⟨other, rfl⟩

theorem genSubstLoop_succ {ε : Type} (value : Int64) (fuel : Nat) (c : Char) (rest : List Char) :
    (genSubstLoop value (fuel + 1) (c :: rest) : Fallible ε (List Char)) = (do
      let piece ← (next c rest).1.write value
      let later ← genSubstLoop value fuel (next c rest).2
      pure (piece ++ later)) := by
  conv_lhs => unfold genSubstLoop
  by_cases plain : c ≠ '$'
  · rw [if_pos plain, next, if_pos plain]
    rfl
  · obtain rfl := not_not.mp plain
    rw [if_neg plain]
    rcases next_dollar rest with ⟨spec, after, opens, closes, same⟩ | ⟨other, same⟩
    · rw [same, opens, closes]
      rfl
    · rw [same]
      split
      · rename_i opens closes
        exact (other _ _ opens closes).elim
      · rfl

end GenPiece

def templatePieces (template : List Char) : List GenPiece :=
  GenPiece.allFrom template.length template

/-- What a template stands for with a value of the iterator. -/
def substituted (template : List Char) (value : Int64) : List Char :=
  (templatePieces template).flatMap (GenPiece.text value)

def NarrowTemplate (template : List Char) : Prop := ∀ piece ∈ templatePieces template, piece.Narrow

instance (template : List Char) : Decidable (NarrowTemplate template) :=
  inferInstanceAs (Decidable (∀ piece ∈ templatePieces template, piece.Narrow))

theorem genSubstLoop_cases {ε : Type} (value : Int64) : ∀ (fuel : Nat) (template : List Char),
    ((∀ piece ∈ GenPiece.allFrom fuel template, piece.Narrow) ∧
        (genSubstLoop value fuel template : Fallible ε (List Char)) =
          .ok ((GenPiece.allFrom fuel template).flatMap (GenPiece.text value))) ∨
      ((¬ ∀ piece ∈ GenPiece.allFrom fuel template, piece.Narrow) ∧
        (genSubstLoop value fuel template : Fallible ε (List Char)) = .error .panicked) := by
  intro fuel
  induction fuel with
  | zero => exact fun template => Or.inl ⟨List.forall_mem_nil _, rfl⟩
  | succ fuel ih =>
    intro template
    cases template with
    | nil => exact Or.inl ⟨List.forall_mem_nil _, rfl⟩
    | cons c rest =>
      rw [GenPiece.genSubstLoop_succ, GenPiece.allFrom, List.forall_mem_cons, GenPiece.write]
      by_cases here : (GenPiece.next c rest).1.Narrow
      · rw [if_pos here]
        rcases ih (GenPiece.next c rest).2 with ⟨later, done⟩ | ⟨wide, stopped⟩
        · exact Or.inl ⟨⟨here, later⟩, by rw [done]; rfl⟩
        · exact Or.inr ⟨fun all => wide all.2, by rw [stopped]; rfl⟩
      · rw [if_neg here]
        exact Or.inr ⟨fun all => here all.1, rfl⟩

theorem genSubst_narrow {ε : Type} {template : List Char} (narrow : NarrowTemplate template)
    (value : Int64) :
    (genSubst template value : Fallible ε (List Char)) = .ok (substituted template value) := by
  rcases genSubstLoop_cases value template.length template with ⟨_, done⟩ | ⟨wide, _⟩
  · exact done
  · exact absurd narrow wide

theorem narrow_of_genSubst {ε : Type} {template text : List Char} {value : Int64}
    (done : (genSubst template value : Fallible ε (List Char)) = .ok text) :
    NarrowTemplate template := by
  rcases genSubstLoop_cases value template.length template with ⟨narrow, _⟩ | ⟨_, stopped⟩
  · exact narrow
  · rw [genSubst, stopped] at done
    cases done

namespace Directive

def record (directive : Directive) (origin : DnsName) (line : Nat) (value : Int64) :
    Fallible ZoneError Record := do
  let owner ← resolveName (String.ofList (substituted directive.lhs value)) origin line
  let rdata ← mapErr (ZoneError.mk line)
    (rdataFromText directive.rtype (String.ofList (substituted directive.rhs value)) origin)
  pure { name := owner, class_ := classIn, ttl := directive.ttl, rdata }

/-- A round of the loop, up to its record. -/
def round (directive : Directive) (origin : DnsName) (line : Nat) (value : Int64) :
    Fallible ZoneError Record := do
  let owner ← resolveName (String.ofList (← genSubst directive.lhs value)) origin line
  let text ← genSubst directive.rhs value
  let rdata ← mapErr (ZoneError.mk line)
    (rdataFromText directive.rtype (String.ofList text) origin)
  pure { name := owner, class_ := classIn, ttl := directive.ttl, rdata }

def Narrow (directive : Directive) : Prop :=
  NarrowTemplate directive.lhs ∧ NarrowTemplate directive.rhs

instance (directive : Directive) : Decidable directive.Narrow :=
  inferInstanceAs (Decidable (_ ∧ _))

theorem round_of_narrow {directive : Directive} (narrow : directive.Narrow) (origin : DnsName)
    (line : Nat) : directive.round origin line = directive.record origin line := by
  funext value
  rw [round, record, genSubst_narrow narrow.1, genSubst_narrow narrow.2]
  rfl

theorem narrow_of_round {directive : Directive} {origin : DnsName} {line : Nat} {value : Int64}
    {record : Record} (done : directive.round origin line value = .ok record) :
    directive.Narrow := by
  obtain ⟨owner, written, done⟩ := fallible_bind done
  obtain ⟨_, _, done⟩ := fallible_bind done
  obtain ⟨text, data, _⟩ := fallible_bind done
  exact ⟨narrow_of_genSubst written, narrow_of_genSubst data⟩

def expand (directive : Directive) (origin : DnsName) (line fuel : Nat) (value : Int64) :
    Fallible ZoneError (List Record) :=
  generateLoop directive.lhs directive.rhs directive.rtype origin directive.ttl
    directive.range.stop directive.range.step line fuel value

end Directive

/-! ## Reading a directive -/

section Reading

variable {line : Nat} {range : GenRange}

theorem readSpan_ok {span : List Char} {step : Int64} (read : readSpan span step line = .ok range) :
    range.step = step ∧
      ∃ start stop, splitOnce '-' span = some (start, stop) ∧
        parseI64 start line "$GENERATE start" = .ok range.start ∧
        parseI64 stop line "$GENERATE stop" = .ok range.stop := by
  unfold readSpan at read
  split at read
  · cases read
  rename_i start stop cut
  obtain ⟨first, started, read⟩ := fallible_bind read
  obtain ⟨last, stopped, read⟩ := fallible_bind read
  split at read
  · cases read
  · cases read
    exact ⟨rfl, start, stop, cut, started, stopped⟩

theorem readRange_ok {text : List Char} (read : readRange text line = .ok range) :
    ∃ span, readSpan span range.step line = .ok range ∧
      ((splitOnce '/' text = none ∧ span = text ∧ range.step = 1) ∨
        ∃ digits, splitOnce '/' text = some (span, digits) ∧
          parseI64 digits line "$GENERATE step" = .ok range.step) := by
  unfold readRange at read
  split at read
  · rename_i span digits cut
    obtain ⟨step, stepped, read⟩ := fallible_bind read
    obtain ⟨rfl, _⟩ := readSpan_ok read
    exact ⟨span, read, Or.inr ⟨digits, cut, stepped⟩⟩
  · rename_i whole
    have one := (readSpan_ok read).1
    rw [← one] at read
    exact ⟨text, read, Or.inl ⟨whole, rfl, one⟩⟩

theorem splitOnce_before {separator : Char} {text before after : List Char}
    (cut : splitOnce separator text = some (before, after)) : separator ∉ before := by
  unfold splitOnce at cut
  split at cut
  · cases cut
    intro member
    simpa using List.all_eq_true.mp List.all_takeWhile separator member
  · cases cut

theorem parseUnsigned_lt {limit : Nat} {text : List Char} {value : Nat}
    (read : parseUnsigned limit text = some value) : value < limit := by
  unfold parseUnsigned at read
  dsimp only at read
  split_ifs at read with bad small
  cases read
  exact small

theorem parseSigned_nonneg {text : List Char} {value : Int64} (unsigned : '-' ∉ text)
    (read : parseSigned text = some value) : 0 ≤ value := by
  unfold parseSigned at read
  split at read
  · exact absurd List.mem_cons_self unsigned
  obtain ⟨number, found, rfl⟩ := Option.map_eq_some_iff.mp read
  obtain ⟨natural, digits, same⟩ := Option.bind_eq_some_iff.mp found
  cases same
  have small := parseUnsigned_lt digits
  rw [Int64.le_iff_toInt_le, Int64.toInt_ofInt_of_le (by omega) (by omega)]
  exact Int.natCast_nonneg natural

/-- The start is what stands before the first dash, so it has no sign. -/
theorem readRange_stepped {text : List Char} (read : readRange text line = .ok range) :
    Stepped range.start range.stop range.step := by
  obtain ⟨span, spanned, _⟩ := readRange_ok read
  obtain ⟨_, start, stop, cut, started, _⟩ := readSpan_ok spanned
  have low : 0 ≤ range.start := by
    unfold parseI64 at started
    split at started
    · rename_i value parsed
      cases started
      exact parseSigned_nonneg (splitOnce_before cut) parsed
    · cases started
  have checked := range.checked
  rw [not_or, not_or, Int64.not_le, Int64.not_lt] at checked
  exact ⟨low, checked.2.1, checked.1⟩

theorem readDirective_ok {toks : List Tok} {defaultTtl : UInt32} {directive : Directive}
    (read : readDirective toks defaultTtl line = .ok directive) :
    Stepped directive.range.start directive.range.stop directive.range.step ∧
      ∀ origin, expandGenerate toks origin defaultTtl line =
        directive.expand origin line (2 ^ 64) directive.range.start := by
  unfold readDirective at read
  split at read
  · rename_i range lhs rest
    obtain ⟨⟨ttl, rest⟩, classified, read⟩ := fallible_bind read
    dsimp only at read
    split at read
    · cases read
    rename_i rtype rest
    obtain ⟨range, ranged, read⟩ := fallible_bind read
    cases read
    refine ⟨readRange_stepped ranged, fun origin => ?_⟩
    obtain ⟨span, spanned, stepped⟩ := readRange_ok ranged
    obtain ⟨_, start, stop, cut, started, stopped⟩ := readSpan_ok spanned
    unfold expandGenerate
    dsimp only
    rcases stepped with ⟨whole, rfl, one⟩ | ⟨digits, halves, stepped⟩
    · simp only [classified, whole, cut, started, stopped, ← one, bind, Except.bind, pure,
        Except.pure, if_neg range.checked]
      rfl
    · simp only [classified, halves, stepped, cut, started, stopped, bind, Except.bind, pure,
        Except.pure, if_neg range.checked]
      rfl
  · cases read
  · cases read

end Reading

/-! ## The loop -/

namespace Directive

variable {directive : Directive} {origin : DnsName} {line : Nat}

def value (directive : Directive) (round : Nat) : Int64 :=
  counter directive.range.start directive.range.step round

def last (directive : Directive) : Nat :=
  lastRound directive.range.start directive.range.stop directive.range.step

theorem expand_succ (directive : Directive) (origin : DnsName) (line fuel : Nat) (value : Int64) :
    directive.expand origin line (fuel + 1) value =
      if value ≤ directive.range.stop then do
        let record ← directive.round origin line value
        let later ← directive.expand origin line fuel (value + directive.range.step)
        pure (record :: later)
      else pure [] := by
  unfold expand round
  rw [generateLoop]
  simp only [bind_assoc, pure_bind]

/-- A round in the range that returned gives the record of its value first. -/
theorem expand_within {fuel : Nat} {value : Int64} {records : List Record}
    (within : value ≤ directive.range.stop)
    (done : directive.expand origin line fuel value = .ok records) :
    ∃ fuel' record later, directive.round origin line value = .ok record ∧
      directive.expand origin line fuel' (value + directive.range.step) = .ok later ∧
      records = record :: later := by
  cases fuel with
  | zero => cases done
  | succ fuel =>
    rw [expand_succ, if_pos within] at done
    obtain ⟨record, built, done⟩ := fallible_bind done
    obtain ⟨later, rest, done⟩ := fallible_bind done
    cases done
    exact ⟨fuel, record, later, built, rest, rfl⟩

theorem lt_length_of_expand {rounds : Nat} : ∀ (first : Nat) {fuel : Nat} {records : List Record},
    (∀ round ≤ rounds, directive.value (first + round) ≤ directive.range.stop) →
    directive.expand origin line fuel (directive.value first) = .ok records →
    rounds < records.length := by
  induction rounds with
  | zero =>
    intro first fuel records within done
    obtain ⟨_, record, later, _, _, rfl⟩ := expand_within (within 0 (Nat.le_refl 0)) done
    exact Nat.succ_pos _
  | succ rounds ih =>
    intro first fuel records within done
    obtain ⟨fuel, record, later, _, rest, rfl⟩ := expand_within (within 0 (Nat.zero_le _)) done
    have next : directive.value first + directive.range.step = directive.value (first + 1) :=
      (counter_succ _ _ _).symm
    rw [Nat.add_zero, next] at rest
    refine Nat.succ_lt_succ (ih (first + 1) (fun round small => ?_) rest)
    rw [Nat.add_right_comm]
    exact within (round + 1) (by omega)

theorem expand_exact {rounds : Nat} : ∀ (first : Nat) {fuel : Nat}, rounds < fuel →
    (∀ round < rounds, directive.value (first + round) ≤ directive.range.stop ∧
      ∃ record, directive.round origin line (directive.value (first + round)) = .ok record) →
    directive.range.stop < directive.value (first + rounds) →
    ∃ records, directive.expand origin line fuel (directive.value first) = .ok records ∧
      records.length = rounds ∧
      ∀ round < rounds, ∃ record, records[round]? = some record ∧
        directive.round origin line (directive.value (first + round)) = .ok record := by
  induction rounds with
  | zero =>
    intro first fuel room within above
    obtain ⟨fuel, rfl⟩ := Nat.exists_eq_succ_of_ne_zero (Nat.ne_of_gt room)
    refine ⟨[], ?_, rfl, fun round none => absurd none (Nat.not_lt_zero _)⟩
    rw [Nat.add_zero] at above
    rw [expand_succ, if_neg (Int64.not_le.mpr above)]
    rfl
  | succ rounds ih =>
    intro first fuel room within above
    obtain ⟨fuel, rfl⟩ := Nat.exists_eq_succ_of_ne_zero (Nat.ne_of_gt (Nat.zero_lt_of_lt room))
    obtain ⟨inside, record, built⟩ := within 0 (Nat.succ_pos _)
    have next : directive.value first + directive.range.step = directive.value (first + 1) :=
      (counter_succ _ _ _).symm
    have shift : ∀ round, first + 1 + round = first + (round + 1) := fun round => by omega
    obtain ⟨later, rest, length, each⟩ := ih (first + 1) (Nat.lt_of_succ_lt_succ room)
      (fun round small => by rw [shift]; exact within (round + 1) (by omega))
      (by rw [shift]; exact above)
    refine ⟨record :: later, ?_, by rw [List.length_cons, length], ?_⟩
    · rw [Nat.add_zero] at inside built
      rw [expand_succ, if_pos inside, next, rest, built]
      rfl
    · intro round small
      cases round with
      | zero => exact ⟨record, rfl, built⟩
      | succ round =>
        obtain ⟨found, stored, built⟩ := each round (by omega)
        rw [shift] at built
        exact ⟨found, stored, built⟩

/-- Where the counter never leaves the range, the loop does not end. -/
theorem expand_endless (inside : ∀ value, value ≤ directive.range.stop)
    (built : ∀ value, ∃ record, directive.round origin line value = .ok record) :
    ∀ (fuel : Nat) (value : Int64), directive.expand origin line fuel value = .error .panicked := by
  intro fuel
  induction fuel with
  | zero =>
    intro value
    rfl
  | succ fuel ih =>
    intro value
    obtain ⟨record, here⟩ := built value
    rw [expand_succ, if_pos (inside value), here, ih]
    rfl

def Expansion (directive : Directive) (origin : DnsName) (line : Nat) (records : List Record) :
    Prop :=
  records.length = directive.last + 1 ∧
    ∀ round ≤ directive.last,
      (directive.value round).toInt =
        directive.range.start.toInt + round * directive.range.step.toInt ∧
      ∃ record, records[round]? = some record ∧
        directive.record origin line (directive.value round) = .ok record

/-- The counter still fits its type one step after the last round. -/
def Fits (directive : Directive) : Prop :=
  directive.range.start.toInt + (directive.last + 1) * directive.range.step.toInt < 2 ^ 63

instance (directive : Directive) : Decidable directive.Fits :=
  inferInstanceAs (Decidable (_ < _))

end Directive

/-- With records for all its values, a directive expands to exactly its range if and only
if the counter fits and so do the widths of its templates. -/
theorem expandGenerate_exact_iff {toks : List Tok} {origin : DnsName} {defaultTtl : UInt32}
    {line : Nat} {directive : Directive}
    (read : readDirective toks defaultTtl line = .ok directive)
    (built : ∀ round ≤ directive.last,
      ∃ record, directive.record origin line (directive.value round) = .ok record) :
    (∃ records, expandGenerate toks origin defaultTtl line = .ok records ∧
      directive.Expansion origin line records) ↔ directive.Fits ∧ directive.Narrow := by
  obtain ⟨stepped, expands⟩ := readDirective_ok read
  have start : directive.range.start = directive.value 0 := (counter_zero _ _).symm
  rw [expands, start, Directive.Fits, Directive.last, ← stepped.lt_counter_iff]
  constructor
  · rintro ⟨records, done, length, _⟩
    have first : directive.value 0 ≤ directive.range.stop := (stepped.counter_le (Nat.zero_le _)).2
    obtain ⟨_, _, _, made, _⟩ := Directive.expand_within first done
    refine ⟨?_, Directive.narrow_of_round made⟩
    -- a counter that wraps is in the range again, and one more record follows
    by_contra wraps
    have inside : ∀ round ≤ directive.last + 1,
        directive.value (0 + round) ≤ directive.range.stop := by
      intro round small
      rw [Nat.zero_add]
      by_cases last : round ≤ directive.last
      · exact (stepped.counter_le last).2
      · have next : round = directive.last + 1 := by omega
        rw [next]
        exact Int64.not_lt.mp wraps
    have more := Directive.lt_length_of_expand 0 inside done
    omega
  · rintro ⟨above, narrow⟩
    have few : directive.last + 1 < 2 ^ 64 := by
      have bound := ((directive.range.stop - directive.range.start) / directive.range.step).toInt_lt
      unfold Directive.last lastRound
      omega
    obtain ⟨records, done, length, each⟩ := Directive.expand_exact 0 few
      (fun round small => by
        rw [Nat.zero_add, Directive.round_of_narrow narrow]
        exact ⟨(stepped.counter_le (Nat.le_of_lt_succ small)).2,
          built round (Nat.le_of_lt_succ small)⟩)
      (by rw [Nat.zero_add]; exact above)
    refine ⟨records, done, length, fun round small => ⟨(stepped.counter_le small).1, ?_⟩⟩
    obtain ⟨record, stored, made⟩ := each round (Nat.lt_succ_of_le small)
    rw [Nat.zero_add, Directive.round_of_narrow narrow] at made
    exact ⟨record, stored, made⟩

def hostsDirective : List Tok :=
  [.word "$GENERATE", .word "1-3", .word "h$", .word "A", .word "10.0.0.$"]

theorem hostsDirective_exact :
    ∃ directive records, readDirective hostsDirective 3600 1 = .ok directive ∧
      directive.last = 2 ∧ expandGenerate hostsDirective DnsName.root 3600 1 = .ok records ∧
      directive.Expansion DnsName.root 1 records := by
  have computed : ((readDirective hostsDirective 3600 1).toOption.any fun directive =>
      decide (directive.last = 2) && decide (directive.Fits ∧ directive.Narrow) &&
        (List.range 3).all fun round =>
          (directive.record DnsName.root 1 (directive.value round)).toOption.any fun _ => true) =
      true := by
    decide +kernel
  obtain ⟨directive, read, checked⟩ := exists_of_toOption_any computed
  rw [Bool.and_eq_true, Bool.and_eq_true, decide_eq_true_eq, decide_eq_true_eq,
    List.all_eq_true] at checked
  obtain ⟨⟨last, fits⟩, each⟩ := checked
  have built : ∀ round ≤ directive.last,
      ∃ record, directive.record DnsName.root 1 (directive.value round) = .ok record := by
    intro round small
    obtain ⟨record, built, _⟩ :=
      exists_of_toOption_any (each round (List.mem_range.mpr (by omega)))
    exact ⟨record, built⟩
  obtain ⟨records, done, expansion⟩ := (expandGenerate_exact_iff read built).mpr fits
  exact ⟨directive, records, read, last, done, expansion⟩

def topDirective : List Tok :=
  [.word "$GENERATE", .word "9223372036854775807-9223372036854775807", .word "a", .word "A",
    .word "10.0.0.1"]

theorem topRange_checked : ¬((1 : Int64) ≤ 0 ∨ Int64.maxValue < Int64.maxValue ∨
    (Int64.maxValue - Int64.maxValue) / 1 > 1000000) := by decide

def topRange : GenRange := ⟨Int64.maxValue, Int64.maxValue, 1, topRange_checked⟩

def topRead : Directive := ⟨topRange, ['a'], "10.0.0.1".toList, "A", 3600⟩

theorem topRead_narrow : topRead.Narrow := by decide +kernel

theorem topRead_record (value : Int64) :
    ∃ record, topRead.record DnsName.root 1 value = .ok record := by
  -- the templates have no iterator, so that the value is not looked at
  have same : topRead.record DnsName.root 1 value = topRead.record DnsName.root 1 0 := rfl
  have computed : ((topRead.record DnsName.root 1 0).toOption.any fun _ => true) = true := by
    decide +kernel
  obtain ⟨record, built, _⟩ := exists_of_toOption_any computed
  exact ⟨record, same.trans built⟩

/-- One value, and the loop goes round for ever. -/
theorem topDirective_endless :
    readDirective topDirective 3600 1 = .ok topRead ∧ topRead.last = 0 ∧
      (∀ round ≤ topRead.last,
        ∃ record, topRead.record DnsName.root 1 (topRead.value round) = .ok record) ∧
      (∀ fuel, topRead.expand DnsName.root 1 fuel topRead.range.start = .error .panicked) ∧
      ∀ records, expandGenerate topDirective DnsName.root 3600 1 ≠ .ok records := by
  have read : readDirective topDirective 3600 1 = .ok topRead := rfl
  have inside : ∀ value, value ≤ topRead.range.stop := Int64.le_maxValue
  have built := topRead_record
  rw [← Directive.round_of_narrow topRead_narrow] at built
  have endless := Directive.expand_endless inside built
  refine ⟨read, by decide, fun round _ => topRead_record _, fun fuel => endless fuel _, ?_⟩
  intro records done
  rw [(readDirective_ok read).2, endless] at done
  cases done

end Rdns.Zones
