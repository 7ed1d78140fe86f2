import Mathlib.Data.Finset.Max
import Mathlib.Data.List.DropRight
import Rdns.Zones.Segments
import Rdns.Zones.Soa

/-!
# Included files

`expand_includes` replaces the `$INCLUDE` lines of a zone file by what the named files
hold, before `parse_zone_file` reads the text.  A directive with an origin puts an
`$ORIGIN` line in front of the included text and nothing behind it.
-/

set_option autoImplicit false

namespace Rdns.Zones

open Rdns.Lib Rdns.Proto

/-! ## Expansion -/

structure FileSystem (Path : Type) where
  join : Path → List Char → Path
  parent : Path → Option Path
  empty : Path
  display : Path → String
  readToString : Path → Except String (List Char)

/-- `strip_prefix`. -/
def stripLead (lead text : List Char) : Option (List Char) :=
  if lead.isPrefixOf text then some (text.drop lead.length) else none

def trimMatches (mark : Char) (text : List Char) : List Char :=
  (text.dropWhile (· == mark)).rdropWhile (· == mark)

def includeParts (line : List Char) : Option (List (List Char)) :=
  let trimmed := line.dropWhile isWhitespace
  ((stripLead "$INCLUDE".toList trimmed).or (stripLead "$include".toList trimmed)).map
    splitWhitespace

def includedText (origin : Option (List Char)) (expanded : List Char) : List Char :=
  match origin with
  | some origin => "$ORIGIN ".toList ++ origin ++ ['\n'] ++ expanded ++ ['\n']
  | none => expanded ++ ['\n']

section Expansion

variable {Path : Type} (fs : FileSystem Path)

/-- A round of the loop: what is written for one line. -/
def expandLine (nested : List Char → Path → Except String (List Char)) (base : Path)
    (line : List Char) : Except String (List Char) :=
  match includeParts line with
  | none => .ok (line ++ ['\n'])
  | some [] => .error "$INCLUDE needs a file"
  | some (file :: more) => do
    let path := fs.join base (trimMatches '"' file)
    let text ← (fs.readToString path).mapError
      fun e => "$INCLUDE " ++ fs.display path ++ ": " ++ e
    let expanded ← nested text ((fs.parent path).getD fs.empty)
    pure (includedText more.head? expanded)

def expandLines (nested : List Char → Path → Except String (List Char)) (base : Path) :
    List (List Char) → Except String (List Char)
  | [] => .ok []
  | line :: rest => do
    let written ← expandLine fs nested base line
    let later ← expandLines nested base rest
    pure (written ++ later)

def expandFrom : Nat → List Char → Path → Except String (List Char)
  | 0, _, _ => .error "$INCLUDE nested too deeply"
  | left + 1, text, base => expandLines fs (expandFrom left) base (lines text)

def expandIncludes (text : List Char) (base : Path) (depth : Nat) :
    Except String (List Char) :=
  expandFrom fs (9 - depth) text base

def nestedAt (depth : Nat) (text : List Char) (base : Path) : Except String (List Char) :=
  expandIncludes fs text base (depth + 1)

theorem expandIncludes_eq (text : List Char) (base : Path) (depth : Nat) :
    expandIncludes fs text base depth =
      if depth > 8 then .error "$INCLUDE nested too deeply"
      else expandLines fs (nestedAt fs depth) base (lines text) := by
  unfold expandIncludes
  split_ifs with deep
  · rw [Nat.sub_eq_zero_of_le deep]
    rfl
  obtain ⟨left, enough⟩ : ∃ left, 9 - depth = left + 1 := ⟨8 - depth, by omega⟩
  have next : nestedAt fs depth = expandFrom fs left := by
    funext text base
    rw [nestedAt, expandIncludes, show 9 - (depth + 1) = left by omega]
  rw [enough, next]
  rfl

end Expansion

section Lines

variable {Path : Type} {fs : FileSystem Path}
  {nested : List Char → Path → Except String (List Char)} {base : Path}

theorem expandLines_cons_iff {line : List Char} {rest : List (List Char)} {whole : List Char} :
    expandLines fs nested base (line :: rest) = .ok whole ↔
      ∃ written later, expandLine fs nested base line = .ok written ∧
        expandLines fs nested base rest = .ok later ∧ whole = written ++ later := by
  rw [expandLines]
  constructor
  · intro done
    obtain ⟨written, here, done⟩ := fallible_bind done
    obtain ⟨later, there, done⟩ := fallible_bind done
    cases done
    exact ⟨written, later, here, there, rfl⟩
  · rintro ⟨written, later, here, there, rfl⟩
    rw [here, there]
    rfl

theorem expandLines_append_iff {before after : List (List Char)} : ∀ {whole : List Char},
    expandLines fs nested base (before ++ after) = .ok whole ↔
      ∃ front rest, expandLines fs nested base before = .ok front ∧
        expandLines fs nested base after = .ok rest ∧ whole = front ++ rest := by
  induction before with
  | nil =>
    intro whole
    constructor
    · intro done
      exact ⟨[], whole, rfl, done, rfl⟩
    · rintro ⟨front, rest, none, done, rfl⟩
      cases none
      exact done
  | cons line others ih =>
    intro whole
    rw [List.cons_append, expandLines_cons_iff]
    constructor
    · rintro ⟨written, later, here, there, rfl⟩
      obtain ⟨front, rest, before, after, rfl⟩ := ih.mp there
      exact ⟨written ++ front, rest, expandLines_cons_iff.mpr ⟨written, front, here, before, rfl⟩,
        after, (List.append_assoc _ _ _).symm⟩
    · rintro ⟨front, rest, before, after, rfl⟩
      obtain ⟨written, later, here, there, rfl⟩ := expandLines_cons_iff.mp before
      exact ⟨written, later ++ rest, here, ih.mpr ⟨later, rest, there, after, rfl⟩,
        List.append_assoc _ _ _⟩

theorem expandLine_include {line file : List Char} {more : List (List Char)}
    (parts : includeParts line = some (file :: more)) {written : List Char}
    (done : expandLine fs nested base line = .ok written) :
    ∃ text expanded, fs.readToString (fs.join base (trimMatches '"' file)) = .ok text ∧
      nested text ((fs.parent (fs.join base (trimMatches '"' file))).getD fs.empty) =
        .ok expanded ∧ written = includedText more.head? expanded := by
  rw [expandLine, parts] at done
  dsimp only at done
  obtain ⟨text, read, done⟩ := fallible_bind done
  obtain ⟨expanded, inner, done⟩ := fallible_bind done
  cases done
  cases found : fs.readToString (fs.join base (trimMatches '"' file)) with
  | error e =>
    rw [found] at read
    cases read
  | ok held =>
    rw [found] at read
    cases read
    exact ⟨text, expanded, rfl, inner, rfl⟩

theorem ended_includedText (origin : Option (List Char)) (expanded : List Char) :
    Ended (includedText origin expanded) := by
  cases origin <;> exact ended_line _

theorem ended_expandLine {line written : List Char}
    (done : expandLine fs nested base line = .ok written) : Ended written := by
  cases parts : includeParts line with
  | none =>
    rw [expandLine, parts] at done
    cases done
    exact ended_line line
  | some words =>
    cases words with
    | nil =>
      rw [expandLine, parts] at done
      cases done
    | cons file more =>
      obtain ⟨_, expanded, _, _, rfl⟩ := expandLine_include parts done
      exact ended_includedText _ _

theorem ended_expandLines : ∀ {raws : List (List Char)} {written : List Char},
    expandLines fs nested base raws = .ok written → Ended written := by
  intro raws
  induction raws with
  | nil =>
    intro written done c last
    cases done
    cases last
  | cons line rest ih =>
    intro written done
    obtain ⟨first, later, here, there, rfl⟩ := expandLines_cons_iff.mp done
    exact (ended_expandLine here).append (ih there)

end Lines

/-! ## The origin in force -/

def LogicalLine.sets (logical : LogicalLine) : Option DnsName :=
  if eqIgnoreAsciiCase ((logical.toks.head?.map Tok.text).getD "") "$ORIGIN" then
    logical.toks[1]?.bind fun arg => (DnsName.parseStr arg.text).toOption
  else none

def lastOrigin (logical : List LogicalLine) : Option DnsName :=
  (logical.filterMap LogicalLine.sets).getLast?

theorem lastOrigin_cons (logical : LogicalLine) (rest : List LogicalLine) :
    lastOrigin (logical :: rest) = (lastOrigin rest).or logical.sets := by
  unfold lastOrigin
  cases set : logical.sets with
  | none => rw [List.filterMap_cons_none set, Option.or_none]
  | some name =>
    rw [List.filterMap_cons_some set, List.getLast?_cons]
    cases (rest.filterMap LogicalLine.sets).getLast? <;> rfl

theorem lastOrigin_moved (count : Nat) (logical : List LogicalLine) :
    lastOrigin (logical.map (LogicalLine.moved count)) = lastOrigin logical := by
  have same : LogicalLine.sets ∘ LogicalLine.moved count = LogicalLine.sets := by
    funext line
    rw [Function.comp_apply, LogicalLine.sets, LogicalLine.moved, LogicalLine.sets]
  unfold lastOrigin
  rw [List.filterMap_map, same]

theorem origin_of_record {state next : FileState} {origin : DnsName} {line : Nat}
    {found : DnsName × List Tok}
    (read : (do
      let (ttl, words) ← ttlAndClass line state.defaultTtl found.2
      match words with
      | [] => err line "missing record type"
      | rtype :: words =>
        let rdata ← parseRdata (toAsciiUppercase rtype.text) words origin line
        pure { state with
          origin := some origin
          lastName := some found.1
          all := state.all ++ [{ name := found.1, class_ := classIn, ttl, rdata }] }) =
      Except.ok next) : next.origin = some origin := by
  obtain ⟨⟨ttl, words⟩, _, read⟩ := fallible_bind read
  cases words with
  | nil => cases read
  | cons rtype words =>
    obtain ⟨rdata, _, read⟩ := fallible_bind read
    cases read
    rfl

theorem parseRecordLine_origin {state next : FileState} {logical : LogicalLine}
    (read : parseRecordLine state logical = .ok next) : next.origin = state.origin := by
  unfold parseRecordLine at read
  cases known : state.origin with
  | none =>
    rw [known] at read
    cases read
  | some origin =>
    rw [known] at read
    dsimp only at read
    -- the owner is found in one of two ways, and what follows is the same for both
    by_cases blank : logical.startsWs = true
    · rw [if_pos blank] at read
      cases previous : state.lastName with
      | none =>
        rw [previous] at read
        cases read
      | some name =>
        rw [previous] at read
        obtain ⟨found, _, read⟩ := fallible_bind read
        exact origin_of_record read
    · rw [if_neg blank] at read
      obtain ⟨name, _, read⟩ := fallible_bind read
      obtain ⟨found, _, read⟩ := fallible_bind read
      exact origin_of_record read

theorem parseLine_sets {state next : FileState} {logical : LogicalLine}
    (read : parseLine state logical = .ok next) : next.origin = logical.sets.or state.origin := by
  unfold parseLine at read
  unfold LogicalLine.sets
  dsimp only at read
  by_cases origin : eqIgnoreAsciiCase ((logical.toks.head?.map Tok.text).getD "") "$ORIGIN" = true
  · rw [if_pos origin] at read ⊢
    cases argument : logical.toks[1]? with
    | none =>
      rw [argument] at read
      cases read
    | some arg =>
      rw [argument] at read
      dsimp only at read
      rw [Option.bind_some]
      cases parsed : DnsName.parseStr arg.text with
      | error e =>
        rw [parsed] at read
        cases read
      | ok name =>
        rw [parsed] at read
        cases read
        rfl
  · rw [if_neg origin] at read ⊢
    rw [Option.none_or]
    split_ifs at read with ttl generate
    · cases argument : logical.toks[1]? with
      | none =>
        rw [argument] at read
        cases read
      | some arg =>
        rw [argument] at read
        obtain ⟨value, _, read⟩ := fallible_bind read
        cases read
        rfl
    · cases known : state.origin with
      | none =>
        rw [known] at read
        cases read
      | some origin =>
        rw [known] at read
        obtain ⟨records, _, read⟩ := fallible_bind read
        cases read
        rfl
    · exact parseRecordLine_origin read

theorem foldlM_sets {logical : List LogicalLine} : ∀ {state last : FileState},
    logical.foldlM parseLine state = .ok last →
      last.origin = (lastOrigin logical).or state.origin := by
  induction logical with
  | nil =>
    intro state last read
    cases read
    rfl
  | cons line rest ih =>
    intro state last read
    rw [List.foldlM_cons] at read
    obtain ⟨next, here, later⟩ := fallible_bind read
    rw [ih later, parseLine_sets here, lastOrigin_cons, Option.or_assoc]

/-- The origin under which `parse_zone_file` reads the logical line that begins on a line:
the lines before it are read. -/
def originAt (text : List Char) (number : Nat) : Option (Option DnsName) := do
  let logical ← (logicalLines text).toOption
  if logical.any fun line => line.line = number then
    let before := logical.filter fun line => line.line < number
    let state ← (before.foldlM parseLine .start).toOption
    pure state.origin
  else none

/-- The origin that is left at the end, which is the origin of the zone. -/
def zoneOrigin (text : List Char) : Option (Option DnsName) := do
  let logical ← (logicalLines text).toOption
  let state ← (logical.foldlM parseLine .start).toOption
  pure state.origin

theorem zoneOrigin_iff {text : List Char} {origin : Option DnsName} :
    zoneOrigin text = some origin ↔
      ∃ logical state, logicalLines text = .ok logical ∧
        logical.foldlM parseLine .start = .ok state ∧ state.origin = origin := by
  simp only [zoneOrigin, bind, pure, Option.bind_eq_some_iff, toOption_eq_some_iff,
    Option.some_inj, exists_and_left]

theorem originAt_iff {text : List Char} {number : Nat} {origin : Option DnsName} :
    originAt text number = some origin ↔
      ∃ logical state, logicalLines text = .ok logical ∧ (∃ line ∈ logical, line.line = number) ∧
        (logical.filter fun line => line.line < number).foldlM parseLine .start = .ok state ∧
          state.origin = origin := by
  simp only [originAt, bind, pure, Option.bind_eq_some_iff, toOption_eq_some_iff,
    Option.ite_none_right_eq_some, List.any_eq_true, decide_eq_true_eq, Option.some_inj,
    exists_and_left]

section Behind

variable {first second : List Char} {outer inner : List LogicalLine} {number : Nat}

theorem filter_moved (count : Nat) :
    (inner.map (LogicalLine.moved count)).filter (fun line => line.line < count + number) =
      (inner.filter fun line => line.line < number).map (LogicalLine.moved count) := by
  rw [List.filter_map]
  congr 1
  refine List.filter_congr fun line _ => ?_
  have test : line.line + count < count + number ↔ line.line < number := by omega
  exact decide_eq_decide.mpr test

theorem originAt_append_iff (ended : Ended first) (read : logicalLines first = .ok outer)
    (read' : logicalLines second = .ok inner) (positive : 0 < number) {origin : Option DnsName} :
    originAt (first ++ second) ((lines first).length + number) = some origin ↔
      ∃ state, (∃ line ∈ inner, line.line = number) ∧
        (outer ++ (inner.filter fun line => line.line < number).map
          (LogicalLine.moved (lines first).length)).foldlM parseLine .start = .ok state ∧
        state.origin = origin := by
  have whole : logicalLines (first ++ second) = .ok _ :=
    (logicalLines_append ended read).mpr ⟨inner, read', rfl⟩
  have kept : outer.filter (fun line => line.line < (lines first).length + number) = outer := by
    refine List.filter_eq_self.mpr fun line member => ?_
    have range := line_range read line member
    rw [decide_eq_true_eq]
    omega
  have begins : (∃ line ∈ outer ++ inner.map (LogicalLine.moved (lines first).length),
      line.line = (lines first).length + number) ↔ ∃ line ∈ inner, line.line = number := by
    constructor
    · rintro ⟨line, member, begins⟩
      rcases List.mem_append.mp member with early | late
      · have range := line_range read line early
        omega
      · obtain ⟨own, among, rfl⟩ := List.mem_map.mp late
        exact ⟨own, among, Nat.add_right_cancel (begins.trans (Nat.add_comm _ _))⟩
    · rintro ⟨line, member, rfl⟩
      exact ⟨_, List.mem_append_right _ (List.mem_map_of_mem member), Nat.add_comm _ _⟩
  rw [originAt_iff]
  constructor
  · rintro ⟨logical, state, same, there, folded, known⟩
    cases whole.symm.trans same
    rw [List.filter_append, kept, filter_moved] at folded
    exact ⟨state, begins.mp there, folded, known⟩
  · rintro ⟨state, there, folded, known⟩
    refine ⟨_, state, whole, begins.mpr there, ?_, known⟩
    rw [List.filter_append, kept, filter_moved]
    exact folded

theorem zoneOrigin_append_iff (ended : Ended first) (read : logicalLines first = .ok outer)
    (read' : logicalLines second = .ok inner) {origin : Option DnsName} :
    zoneOrigin (first ++ second) = some origin ↔
      ∃ state, (outer ++ inner.map (LogicalLine.moved (lines first).length)).foldlM parseLine
        .start = .ok state ∧ state.origin = origin := by
  have whole : logicalLines (first ++ second) = .ok _ :=
    (logicalLines_append ended read).mpr ⟨inner, read', rfl⟩
  rw [zoneOrigin_iff]
  constructor
  · rintro ⟨logical, state, same, folded, known⟩
    cases whole.symm.trans same
    exact ⟨state, folded, known⟩
  · rintro ⟨state, folded, known⟩
    exact ⟨_, state, whole, folded, known⟩

end Behind

/-! ## Scoped origins

The text in front of a directive, what it stands for and the text behind it. -/

/-- Every line behind the directive is read under the origin it is read under without the
directive, and so is the zone. -/
structure Scoped (front inserted rest : List Char) : Prop where
  each : ∀ number left right, 0 < number →
    originAt (front ++ inserted ++ rest) ((lines (front ++ inserted)).length + number) =
      some left →
    originAt (front ++ rest) ((lines front).length + number) = some right → left = right
  zone : ∀ left right, zoneOrigin (front ++ inserted ++ rest) = some left →
    zoneOrigin (front ++ rest) = some right → left = right

/-- The last origin that the inserted lines set is the one in force at the directive, as
far as the lines are read at all. -/
def Restores (front inserted rest : List Char) : Prop :=
  ∀ outer inner later state next, logicalLines front = .ok outer →
    logicalLines inserted = .ok inner → logicalLines rest = .ok later →
    outer.foldlM parseLine .start = .ok state →
    (inner.map (LogicalLine.moved (lines front).length)).foldlM parseLine state = .ok next →
      ∀ name ∈ lastOrigin inner, state.origin = some name

section Parts

variable {front inserted rest : List Char}

structure Parts (front inserted rest : List Char) (outer inner later : List LogicalLine) :
    Prop where
  front : logicalLines front = .ok outer
  inserted : logicalLines inserted = .ok inner
  rest : logicalLines rest = .ok later

variable {outer inner later : List LogicalLine}

theorem Parts.both (parts : Parts front inserted rest outer inner later) (ended : Ended front) :
    logicalLines (front ++ inserted) =
      .ok (outer ++ inner.map (LogicalLine.moved (lines front).length)) :=
  (logicalLines_append ended parts.front).mpr ⟨inner, parts.inserted, rfl⟩

theorem exists_parts (ended : Ended front) (ended' : Ended inserted) (closed : Closed front)
    {whole bare : List LogicalLine} (read : logicalLines (front ++ inserted ++ rest) = .ok whole)
    (read' : logicalLines (front ++ rest) = .ok bare) :
    ∃ outer inner later, Parts front inserted rest outer inner later := by
  rw [List.append_assoc] at read
  obtain ⟨outer, first⟩ := exists_of_append ended closed read
  obtain ⟨later, last, _⟩ := (logicalLines_append ended first).mp read'
  obtain ⟨behind, both, _⟩ := (logicalLines_append ended first).mp read
  obtain ⟨inner, middle⟩ := exists_of_append ended' (closed_of_append ended' last both) both
  exact ⟨outer, inner, later, first, middle, last⟩

theorem Parts.agree (parts : Parts front inserted rest outer inner later)
    (restores : Restores front inserted rest) {seen seen' : List LogicalLine}
    (same : lastOrigin seen = lastOrigin seen') {left right : FileState}
    (read : (outer ++ inner.map (LogicalLine.moved (lines front).length) ++ seen).foldlM parseLine
      .start = .ok left)
    (read' : (outer ++ seen').foldlM parseLine .start = .ok right) :
    left.origin = right.origin := by
  rw [List.append_assoc, List.foldlM_append] at read
  rw [List.foldlM_append] at read'
  obtain ⟨state, reached, read⟩ := fallible_bind read
  obtain ⟨state', reached', read'⟩ := fallible_bind read'
  cases reached.symm.trans reached'
  rw [List.foldlM_append] at read
  obtain ⟨next, inside, read⟩ := fallible_bind read
  have names := restores outer inner later state next parts.front parts.inserted parts.rest reached
    inside
  have kept : next.origin = state.origin := by
    rw [foldlM_sets inside, lastOrigin_moved]
    cases set : lastOrigin inner with
    | none => rfl
    | some name => exact (names name set).symm
  rw [foldlM_sets read, foldlM_sets read', kept, same]

theorem scoped_of_restores (ended : Ended front) (ended' : Ended inserted) (closed : Closed front)
    (restores : Restores front inserted rest) : Scoped front inserted rest where
  each number left right positive here there := by
    obtain ⟨_, _, read, _⟩ := originAt_iff.mp here
    obtain ⟨_, _, read', _⟩ := originAt_iff.mp there
    obtain ⟨outer, inner, later, parts⟩ := exists_parts ended ended' closed read read'
    obtain ⟨state, _, folded, rfl⟩ :=
      (originAt_append_iff (ended.append ended') (parts.both ended) parts.rest positive).mp here
    obtain ⟨state', _, folded', rfl⟩ :=
      (originAt_append_iff ended parts.front parts.rest positive).mp there
    refine parts.agree restores ?_ folded folded'
    rw [lastOrigin_moved, lastOrigin_moved]
  zone left right here there := by
    obtain ⟨_, _, read, _⟩ := zoneOrigin_iff.mp here
    obtain ⟨_, _, read', _⟩ := zoneOrigin_iff.mp there
    obtain ⟨outer, inner, later, parts⟩ := exists_parts ended ended' closed read read'
    obtain ⟨state, folded, rfl⟩ :=
      (zoneOrigin_append_iff (ended.append ended') (parts.both ended) parts.rest).mp here
    obtain ⟨state', folded', rfl⟩ := (zoneOrigin_append_iff ended parts.front parts.rest).mp there
    refine parts.agree restores ?_ folded folded'
    rw [lastOrigin_moved, lastOrigin_moved]

theorem restores_of_scoped (ended : Ended front) (ended' : Ended inserted)
    (keeps : Scoped front inserted rest) : Restores front inserted rest := by
  intro outer inner later state next first middle last reached inside name set
  have parts : Parts front inserted rest outer inner later := ⟨first, middle, last⟩
  have through : (outer ++ inner.map (LogicalLine.moved (lines front).length)).foldlM parseLine
      .start = .ok next := by
    rw [List.foldlM_append, reached]
    exact inside
  have agree : next.origin = state.origin := by
    by_cases none : later = []
    · subst none
      refine keeps.zone _ _ ?_ ?_
      · refine (zoneOrigin_append_iff (ended.append ended') (parts.both ended) last).mpr
          ⟨next, ?_, rfl⟩
        rw [List.map_nil, List.append_nil]
        exact through
      · refine (zoneOrigin_append_iff ended first last).mpr ⟨state, ?_, rfl⟩
        rw [List.map_nil, List.append_nil]
        exact reached
    · -- the first line that is left
      obtain ⟨line, member, least⟩ := later.toFinset.exists_min_image LogicalLine.line
        (List.toFinset_nonempty_iff _ |>.mpr none)
      rw [List.mem_toFinset] at member
      have positive := (line_range last line member).1
      have nothing : later.filter (fun other => other.line < line.line) = [] := by
        refine List.filter_eq_nil_iff.mpr fun other among => ?_
        rw [decide_eq_true_eq, not_lt]
        exact least other (List.mem_toFinset.mpr among)
      refine keeps.each line.line _ _ positive ?_ ?_
      · refine (originAt_append_iff (ended.append ended') (parts.both ended) last positive).mpr
          ⟨next, ⟨line, member, rfl⟩, ?_, rfl⟩
        rw [nothing, List.map_nil, List.append_nil]
        exact through
      · refine (originAt_append_iff ended first last positive).mpr
          ⟨state, ⟨line, member, rfl⟩, ?_, rfl⟩
        rw [nothing, List.map_nil, List.append_nil]
        exact reached
  rw [← agree, foldlM_sets inside, lastOrigin_moved, Option.mem_def.mp set]
  rfl

end Parts

section Directive

variable {Path : Type} {fs : FileSystem Path} {base : Path} {depth : Nat}
  {text absent whole : List Char} {before after : List (List Char)}
  {directive file origin : List Char} {more : List (List Char)}

/-- The texts of the lines in front of a directive, of the file it names and of the lines
behind it. -/
structure Expansion (fs : FileSystem Path) (base : Path) (depth : Nat)
    (before : List (List Char)) (file : List Char) (after : List (List Char))
    (front nested rest : List Char) : Prop where
  front : expandLines fs (nestedAt fs depth) base before = .ok front
  nested : ∃ content, fs.readToString (fs.join base (trimMatches '"' file)) = .ok content ∧
    nestedAt fs depth content ((fs.parent (fs.join base (trimMatches '"' file))).getD fs.empty) =
      .ok nested
  rest : expandLines fs (nestedAt fs depth) base after = .ok rest

/-- Behind a directive with an origin, lines and zone keep their origin exactly when the last
`$ORIGIN` line of what the directive stands for names the origin in force there. -/
theorem include_scoped_iff (shape : lines text = before ++ directive :: after)
    (without : lines absent = before ++ after)
    (parts : includeParts directive = some (file :: origin :: more))
    (expanded : expandIncludes fs text base depth = .ok whole) :
    ∃ front nested rest, Expansion fs base depth before file after front nested rest ∧
      whole = front ++ includedText (some origin) nested ++ rest ∧
      expandIncludes fs absent base depth = .ok (front ++ rest) ∧
      (Closed front → (Scoped front (includedText (some origin) nested) rest ↔
        Restores front (includedText (some origin) nested) rest)) := by
  rw [expandIncludes_eq] at expanded ⊢
  split_ifs at expanded ⊢ with deep
  rw [shape] at expanded
  obtain ⟨front, behind, first, others, rfl⟩ := expandLines_append_iff.mp expanded
  obtain ⟨written, rest, here, last, rfl⟩ := expandLines_cons_iff.mp others
  obtain ⟨content, nested, read, inner, rfl⟩ := expandLine_include parts here
  have ended := ended_expandLines first
  have ended' := ended_includedText (some origin) nested
  refine ⟨front, nested, rest, ⟨first, ⟨content, read, inner⟩, last⟩,
    (List.append_assoc _ _ _).symm, ?_, fun closed => ?_⟩
  · rw [without]
    exact expandLines_append_iff.mpr ⟨front, rest, first, last, rfl⟩
  · exact ⟨restores_of_scoped ended ended', scoped_of_restores ended ended' closed⟩

end Directive

def siteFiles (content : List Char) : FileSystem (List Char) where
  join base file := base ++ file
  parent _ := none
  empty := []
  display := String.ofList
  readToString path :=
    if path = "sub.db".toList then .ok content else .error "No such file or directory"

def siteFront : List Char := "$ORIGIN ex.test.\n".toList

def siteRest : List Char := "www A 10.0.0.1\n".toList

def siteText : List Char :=
  siteFront ++ "$INCLUDE \"sub.db\" sub.ex.test.\n".toList ++ siteRest

def restoring : List Char := "mail A 10.0.0.2\n$ORIGIN ex.test.\n".toList

theorem restoring_scoped_iff :
    ∃ front nested rest, Expansion (siteFiles restoring) [] 0 ["$ORIGIN ex.test.".toList]
        "\"sub.db\"".toList ["www A 10.0.0.1".toList] front nested rest ∧
      siteFront ++ includedText (some "sub.ex.test.".toList) restoring ++ siteRest =
        front ++ includedText (some "sub.ex.test.".toList) nested ++ rest ∧
      expandIncludes (siteFiles restoring) (siteFront ++ siteRest) [] 0 = .ok (front ++ rest) ∧
      (Closed front → (Scoped front (includedText (some "sub.ex.test.".toList) nested) rest ↔
        Restores front (includedText (some "sub.ex.test.".toList) nested) rest)) := by
  have shape : lines siteText = ["$ORIGIN ex.test.".toList] ++
      "$INCLUDE \"sub.db\" sub.ex.test.".toList :: ["www A 10.0.0.1".toList] := by decide +kernel
  have parts : includeParts "$INCLUDE \"sub.db\" sub.ex.test.".toList =
      some ("\"sub.db\"".toList :: "sub.ex.test.".toList :: []) := by decide +kernel
  have expanded : expandIncludes (siteFiles restoring) siteText [] 0 =
      .ok (siteFront ++ includedText (some "sub.ex.test.".toList) restoring ++ siteRest) := by
    decide +kernel
  exact include_scoped_iff shape (by decide +kernel) parts expanded

def plainFile : List Char := "mail A 10.0.0.2\n".toList

def plainInserted : List Char := includedText (some "sub.ex.test.".toList) plainFile

theorem subName_valid : ValidLabels [[115, 117, 98], [101, 120], [116, 101, 115, 116]] := by decide

def subName : DnsName := ⟨[[115, 117, 98], [101, 120], [116, 101, 115, 116]], subName_valid⟩

/-- `www`, on the fifth line of the expanded text, is under `sub.ex.test.`; without the
directive it is on the second one, under `ex.test.`. -/
theorem plainFile_leaks :
    expandIncludes (siteFiles plainFile) siteText [] 0 =
      .ok (siteFront ++ plainInserted ++ siteRest) ∧
    expandIncludes (siteFiles plainFile) (siteFront ++ siteRest) [] 0 =
      .ok (siteFront ++ siteRest) ∧
    Closed siteFront ∧
    originAt (siteFront ++ plainInserted ++ siteRest) 5 = some (some subName) ∧
    originAt (siteFront ++ siteRest) 2 = some (some apexName) ∧
    ¬ Scoped siteFront plainInserted siteRest := by
  have after : originAt (siteFront ++ plainInserted ++ siteRest) 5 = some (some subName) := by
    decide +kernel
  have absent : originAt (siteFront ++ siteRest) 2 = some (some apexName) := by decide +kernel
  have complete : ((logicalLines siteFront).toOption.any fun _ => true) = true := by decide +kernel
  obtain ⟨logical, read, _⟩ := exists_of_toOption_any complete
  refine ⟨by decide +kernel, by decide +kernel, closed_of_read read, after, absent, fun keeps => ?_⟩
  have same := keeps.each 1 _ _ Nat.one_pos after absent
  exact absurd same (by decide)

end Rdns.Zones
