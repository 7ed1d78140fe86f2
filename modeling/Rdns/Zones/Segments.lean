import Rdns.Lib.Transduce
import Rdns.Zones.Layout

/-!
# Texts one after the other

The logical lines of a text that is put together from others.  Where a text ends with
its line and leaves no parenthesis open, what follows is read as it is read alone, with
the line numbers moved on.
-/

set_option autoImplicit false

namespace Rdns.Zones

open Rdns.Lib Rdns.Proto

variable {text : List Char} {made : List LogicalLine}

/-! ## Physical lines -/

def Ended (text : List Char) : Prop := ∀ c ∈ text.getLast?, c = '\n'

theorem Ended.append {first second : List Char} (left : Ended first) (right : Ended second) :
    Ended (first ++ second) := by
  intro c last
  rw [List.getLast?_append, Option.mem_def, Option.or_eq_some_iff] at last
  rcases last with last | ⟨_, last⟩
  · exact right c last
  · exact left c last

theorem ended_line (text : List Char) : Ended (text ++ ['\n']) := by
  intro c last
  rw [List.getLast?_concat] at last
  exact (Option.some.inj last).symm

theorem linesFrom_append (more : List Char) : ∀ {current : List Char},
    text.getLast? = some '\n' →
      linesFrom current (text ++ more) = linesFrom current text ++ lines more := by
  induction text with
  | nil =>
    intro current none
    cases none
  | cons c rest ih =>
    intro current last
    cases rest with
    | nil =>
      have ending : c = '\n' := Option.some.inj last
      rw [List.singleton_append, linesFrom, if_pos ending, linesFrom, if_pos ending]
      rfl
    | cons next rest =>
      rw [List.getLast?_cons_cons] at last
      rw [List.cons_append, linesFrom, linesFrom]
      split_ifs
      · rw [ih last]
        rfl
      · exact ih last

theorem lines_append (ended : Ended text) (more : List Char) :
    lines (text ++ more) = lines text ++ lines more := by
  cases last : text.getLast? with
  | none =>
    rw [List.getLast?_eq_none_iff.mp last]
    rfl
  | some c =>
    cases ended c last
    exact linesFrom_append more last

/-! ## Tokens at another depth -/

/-- Where more parentheses are open, a line has the same tokens and leaves those open. -/
theorem tokenizeRest_deeper {lineNo : Nat} (lineNo' more : Nat) :
    ∀ {depth left : Nat} {before toks : List Tok},
      tokenizeRest lineNo text depth before = .ok (toks, left) →
        tokenizeRest lineNo' text (depth + more) before = .ok (toks, left + more) := by
  induction scan text with
  | done =>
    intro depth left before toks read
    cases read
    rfl
  | blank white _ ih =>
    intro depth left before toks read
    rw [tokenizeRest_blank _ white] at read ⊢
    exact ih read
  | comment rest =>
    intro depth left before toks read
    rw [tokenizeRest_comment] at read ⊢
    cases read
    rfl
  | opening _ ih =>
    intro depth left before toks read
    rw [tokenizeRest_opening] at read ⊢
    rw [Nat.add_right_comm]
    exact ih read
  | closing _ ih =>
    intro depth left before toks read
    rw [tokenizeRest_closing] at read ⊢
    by_cases shut : depth = 0
    · rw [if_pos shut] at read
      cases read
    · rw [if_neg shut] at read
      rw [if_neg (by omega), Nat.sub_add_comm (by omega)]
      exact ih read
  | unclosed unclosed =>
    intro depth left before toks read
    rw [tokenizeRest_unclosed _ _ unclosed] at read
    cases read
  | quoted bare _ ih =>
    intro depth left before toks read
    rw [tokenizeRest_quoted _ bare] at read ⊢
    exact ih read
  | word filled chars stops _ ih =>
    intro depth left before toks read
    rw [tokenizeRest_word _ filled chars stops] at read ⊢
    exact ih read

theorem tokenizeLine_deeper {lineNo depth left : Nat} {raw : List Char} {toks : List Tok}
    (read : tokenizeLine (String.ofList raw) depth lineNo = .ok (toks, left))
    (lineNo' more : Nat) :
    tokenizeLine (String.ofList raw) (depth + more) lineNo' = .ok (toks, left + more) := by
  unfold tokenizeLine at read ⊢
  rw [String.toList_ofList] at read ⊢
  exact tokenizeRest_deeper lineNo' more read

/-! ## The loop of `logical_lines` -/

structure Joining where
  lineNo : Nat
  depth : Nat
  current : List Tok
  currentLine : Nat
  currentWs : Bool

namespace Joining

def start : Joining := ⟨1, 0, [], 0, false⟩

def opens (state : Joining) (toks : List Tok) : Bool := state.current.isEmpty && !toks.isEmpty

def lineWith (state : Joining) (toks : List Tok) : Nat :=
  if state.opens toks then state.lineNo else state.currentLine

def wsWith (state : Joining) (raw : List Char) (toks : List Tok) : Bool :=
  if state.opens toks then startsBlank raw else state.currentWs

def push (state : Joining) (raw : List Char) (toks : List Tok) (depth : Nat) :
    List LogicalLine × Joining :=
  if depth = 0 ∧ state.current ++ toks ≠ [] then
    ([⟨state.lineWith toks, state.wsWith raw toks, state.current ++ toks⟩],
      ⟨state.lineNo + 1, depth, [], state.lineWith toks, state.wsWith raw toks⟩)
  else ([], ⟨state.lineNo + 1, depth, state.current ++ toks, state.lineWith toks,
    state.wsWith raw toks⟩)

def round (state : Joining) (raw : List Char) :
    Fallible ZoneError (List LogicalLine × Joining) := do
  let (toks, depth) ← tokenizeLine (String.ofList raw) state.depth state.lineNo
  pure (state.push raw toks depth)

theorem round_iff {state : Joining} {raw : List Char} {made : List LogicalLine × Joining} :
    state.round raw = .ok made ↔
      ∃ toks depth, tokenizeLine (String.ofList raw) state.depth state.lineNo = .ok (toks, depth) ∧
        made = state.push raw toks depth := by
  unfold round
  cases read : tokenizeLine (String.ofList raw) state.depth state.lineNo with
  | error e =>
    constructor
    · intro run
      cases run
    · rintro ⟨toks, depth, found, _⟩
      cases found
  | ok found =>
    obtain ⟨toks, depth⟩ := found
    constructor
    · intro run
      cases run
      exact ⟨toks, depth, rfl, rfl⟩
    · rintro ⟨toks', depth', found, rfl⟩
      cases found
      rfl

theorem push_depth (state : Joining) (raw : List Char) (toks : List Tok) (depth : Nat) :
    (state.push raw toks depth).2.depth = depth := by
  unfold push
  split_ifs <;> rfl

theorem round_deeper (more : Nat) {state state' : Joining} {raw : List Char} {next : Joining}
    (deeper : state'.depth = state.depth + more) (step : state.round raw = .ok (made, next)) :
    ∃ made' next', state'.round raw = .ok (made', next') ∧ next'.depth = next.depth + more := by
  obtain ⟨toks, depth, read, same⟩ := round_iff.mp step
  have there := tokenizeLine_deeper read state'.lineNo more
  rw [← deeper] at there
  refine ⟨(state'.push raw toks (depth + more)).1, (state'.push raw toks (depth + more)).2,
    round_iff.mpr ⟨toks, depth + more, there, rfl⟩, ?_⟩
  have next : next = (state.push raw toks depth).2 := congrArg Prod.snd same
  rw [next, push_depth, push_depth]

theorem opens_or_filled {state : Joining} {toks : List Tok} (some : state.current ++ toks ≠ []) :
    state.opens toks = true ∨ state.opens toks = false ∧ state.current ≠ [] := by
  cases shape : state.current with
  | nil =>
    left
    rw [shape] at some
    simpa [opens, shape] using some
  | cons tok rest =>
    right
    simp [opens, shape]

end Joining

def Joining.rest (state : Joining) (raws : List (List Char)) :
    Fallible ZoneError (List LogicalLine) :=
  logicalLoop state.lineNo raws state.depth state.current state.currentLine state.currentWs

theorem Joining.rest_cons (state : Joining) (raw : List Char) (raws : List (List Char)) :
    state.rest (raw :: raws) =
      (state.round raw >>= fun made =>
        made.2.rest raws >>= fun later => pure (made.1 ++ later)) := by
  unfold rest round
  rw [logicalLoop]
  cases tokenizeLine (String.ofList raw) state.depth state.lineNo with
  | error e => rfl
  | ok found =>
    obtain ⟨toks, depth⟩ := found
    have test : (decide (depth = 0) && !(state.current ++ toks).isEmpty) = true ↔
        depth = 0 ∧ state.current ++ toks ≠ [] := by simp
    simp only [bind, Except.bind, pure, Except.pure, push]
    by_cases complete : depth = 0 ∧ state.current ++ toks ≠ []
    · rw [if_pos (test.mpr complete), if_pos complete]
      rfl
    rw [if_neg (mt test.mp complete), if_neg complete]
    simp only [List.nil_append]
    change logicalLoop (state.lineNo + 1) raws depth (state.current ++ toks)
      (state.lineWith toks) (state.wsWith raw toks) = _
    generalize logicalLoop (state.lineNo + 1) raws depth (state.current ++ toks) _ _ = later
    cases later <;> rfl

theorem Joining.rest_iff {raws : List (List Char)} : ∀ {state : Joining}
    {logical : List LogicalLine}, state.rest raws = .ok logical ↔
      ∃ last, transduce Joining.round state raws = .ok (logical, last) ∧ last.depth = 0 := by
  induction raws with
  | nil =>
    intro state logical
    rw [rest, logicalLoop, transduce]
    by_cases shut : state.depth = 0
    · rw [if_neg (not_not_intro shut)]
      constructor
      · intro same
        cases same
        exact ⟨state, rfl, shut⟩
      · rintro ⟨last, same, _⟩
        cases same
        rfl
    · rw [if_pos shut]
      constructor
      · intro same
        cases same
      · rintro ⟨last, same, closed⟩
        cases same
        exact absurd closed shut
  | cons raw rest ih =>
    intro state logical
    rw [rest_cons]
    constructor
    · intro run
      obtain ⟨⟨made, next⟩, first, more⟩ := fallible_bind run
      obtain ⟨later, others, same⟩ := fallible_bind more
      obtain ⟨last, rounds, closed⟩ := ih.mp others
      cases same
      exact ⟨last, transduce_cons_iff.mpr ⟨made, next, later, first, rounds, rfl⟩, closed⟩
    · rintro ⟨last, run, closed⟩
      obtain ⟨made, next, later, first, others, rfl⟩ := transduce_cons_iff.mp run
      have more : next.rest rest = .ok later := ih.mpr ⟨last, others, closed⟩
      rw [first]
      change (next.rest rest >>= _) = _
      rw [more]
      rfl

theorem logicalLines_iff {logical : List LogicalLine} :
    logicalLines text = .ok logical ↔
      ∃ last, transduce Joining.round Joining.start (lines text) = .ok (logical, last) ∧
        last.depth = 0 := by
  have same : logicalLines text = Joining.start.rest (lines text) := rfl
  rw [same, Joining.rest_iff]

/-! ## Line numbers -/

/-- What holds after the lines `seen`, from the first line on. -/
structure Joining.Numbered (seen : List (List Char)) (made : List LogicalLine) (state : Joining) :
    Prop where
  number : state.lineNo = seen.length + 1
  shut : state.depth = 0 → state.current = []
  opened : state.current ≠ [] → 0 < state.currentLine ∧ state.currentLine < state.lineNo
  made : ∀ logical ∈ made, 0 < logical.line ∧ logical.line < state.lineNo

theorem Joining.numbered_start : Numbered [] [] start where
  number := rfl
  shut _ := rfl
  opened some := absurd rfl some
  made _ none := absurd none List.not_mem_nil

theorem Joining.Numbered.lineWith {seen : List (List Char)} {state : Joining}
    (before : Numbered seen made state) {toks : List Tok} (some : state.current ++ toks ≠ []) :
    0 < state.lineWith toks ∧ state.lineWith toks < state.lineNo + 1 := by
  unfold Joining.lineWith
  rcases opens_or_filled some with opens | ⟨opens, filled⟩
  · have number := before.number
    rw [if_pos opens]
    omega
  · obtain ⟨low, high⟩ := before.opened filled
    rw [if_neg (by rw [opens]; exact Bool.false_ne_true)]
    omega

theorem Joining.Numbered.round {seen : List (List Char)} {state : Joining} {raw : List Char}
    {emitted : List LogicalLine} {next : Joining} (before : Numbered seen made state)
    (step : state.round raw = .ok (emitted, next)) :
    Numbered (seen ++ [raw]) (made ++ emitted) next := by
  obtain ⟨toks, depth, _, same⟩ := round_iff.mp step
  have number : state.lineNo + 1 = (seen ++ [raw]).length + 1 := by
    rw [before.number, List.length_append, List.length_singleton]
  have earlier : ∀ logical ∈ made, 0 < logical.line ∧ logical.line < state.lineNo + 1 :=
    fun logical member => ⟨(before.made logical member).1,
      Nat.lt_succ_of_lt (before.made logical member).2⟩
  unfold push at same
  split_ifs at same with complete
  · cases same
    refine ⟨number, fun _ => rfl, fun some => absurd rfl some, ?_⟩
    intro logical member
    rcases List.mem_append.mp member with old | new
    · exact earlier logical old
    · rw [List.mem_singleton.mp new]
      exact before.lineWith complete.2
  · cases same
    refine ⟨number, fun shut => ?_, fun some => before.lineWith some, ?_⟩
    · exact not_not.mp fun some => complete ⟨shut, some⟩
    · rw [List.append_nil]
      exact earlier

theorem Joining.numbered {raws : List (List Char)} {last : Joining}
    (run : transduce Joining.round Joining.start raws = .ok (made, last)) :
    Numbered raws made last := by
  have whole := transduce_invariant Numbered Numbered.round numbered_start run
  rwa [List.nil_append, List.nil_append] at whole

theorem line_range {logical : List LogicalLine} (read : logicalLines text = .ok logical) :
    ∀ line ∈ logical, 0 < line.line ∧ line.line ≤ (lines text).length := by
  obtain ⟨last, run, _⟩ := logicalLines_iff.mp read
  intro line member
  have range := (Joining.numbered run).made line member
  rw [(Joining.numbered run).number] at range
  exact ⟨range.1, Nat.le_of_lt_succ range.2⟩

/-! ## Moving on -/

def LogicalLine.moved (count : Nat) (logical : LogicalLine) : LogicalLine :=
  { logical with line := logical.line + count }

structure Joining.Moved (count : Nat) (state state' : Joining) : Prop where
  number : state'.lineNo = state.lineNo + count
  depth : state'.depth = state.depth
  current : state'.current = state.current
  opened : state.current ≠ [] → state'.currentLine = state.currentLine + count ∧
    state'.currentWs = state.currentWs

namespace Joining

variable {count : Nat} {state state' : Joining}

theorem Moved.labels (moved : Moved count state state') (raw : List Char) {toks : List Tok}
    (some : state.current ++ toks ≠ []) :
    state'.lineWith toks = state.lineWith toks + count ∧
      state'.wsWith raw toks = state.wsWith raw toks := by
  have same : state'.opens toks = state.opens toks := by rw [opens, opens, moved.current]
  unfold lineWith wsWith
  rw [same]
  rcases opens_or_filled some with opens | ⟨opens, filled⟩
  · rw [opens, if_pos rfl, if_pos rfl, if_pos rfl, if_pos rfl]
    exact ⟨moved.number, rfl⟩
  · rw [opens, if_neg Bool.false_ne_true, if_neg Bool.false_ne_true, if_neg Bool.false_ne_true,
      if_neg Bool.false_ne_true]
    exact moved.opened filled

theorem Moved.push (moved : Moved count state state') (raw : List Char) (toks : List Tok)
    (depth : Nat) :
    (state'.push raw toks depth).1 = (state.push raw toks depth).1.map (LogicalLine.moved count) ∧
      Moved count (state.push raw toks depth).2 (state'.push raw toks depth).2 := by
  have number : state'.lineNo + 1 = state.lineNo + 1 + count := by
    rw [moved.number, Nat.add_right_comm]
  unfold Joining.push
  rw [moved.current]
  split_ifs with complete
  · obtain ⟨line, ws⟩ := moved.labels raw complete.2
    refine ⟨?_, number, rfl, rfl, fun some => absurd rfl some⟩
    rw [line, ws]
    rfl
  · exact ⟨rfl, number, rfl, rfl, moved.labels raw⟩

/-- A round is answered by one further on, and the other way round. -/
theorem Moved.round {raw : List Char} {next : Joining} (moved : Moved count state state')
    (step : state.round raw = .ok (made, next)) :
    ∃ made' next', state'.round raw = .ok (made', next') ∧ Moved count next next' ∧
      made' = made.map (LogicalLine.moved count) := by
  obtain ⟨toks, depth, read, same⟩ := round_iff.mp step
  obtain ⟨lines, after⟩ := moved.push raw toks depth
  have there := tokenizeLine_deeper read state'.lineNo 0
  rw [Nat.add_zero, ← moved.depth] at there
  rw [← same] at lines after
  exact ⟨(state'.push raw toks depth).1, (state'.push raw toks depth).2,
    round_iff.mpr ⟨toks, depth, there, rfl⟩, after, lines⟩

theorem Moved.round_back {raw : List Char} {made' : List LogicalLine} {next' : Joining}
    (moved : Moved count state state') (step : state'.round raw = .ok (made', next')) :
    ∃ made next, state.round raw = .ok (made, next) ∧ Moved count next next' ∧
      made' = made.map (LogicalLine.moved count) := by
  obtain ⟨toks, depth, read, same⟩ := round_iff.mp step
  obtain ⟨lines, after⟩ := moved.push raw toks depth
  have there := tokenizeLine_deeper read state.lineNo 0
  rw [Nat.add_zero, moved.depth] at there
  rw [← same] at lines after
  exact ⟨(state.push raw toks depth).1, (state.push raw toks depth).2,
    round_iff.mpr ⟨toks, depth, there, rfl⟩, after, lines⟩

/-- Behind a line that left nothing open, the rest is read as from the start. -/
theorem rest_moved (moved : Moved count state state') {raws : List (List Char)}
    {logical : List LogicalLine} :
    state'.rest raws = .ok logical ↔
      ∃ own, state.rest raws = .ok own ∧ logical = own.map (LogicalLine.moved count) := by
  constructor
  · intro read
    obtain ⟨last', run, closed⟩ := rest_iff.mp read
    obtain ⟨own, last, back, after, same⟩ := transduce_simulates round round
      (fun state' state => Moved count state state')
      (fun made' made => made' = made.map (LogicalLine.moved count)) rfl
      (fun first second => by rw [first, second, List.map_append])
      (fun moved step => moved.round_back step) moved run
    exact ⟨own, rest_iff.mpr ⟨last, back, after.depth.symm.trans closed⟩, same⟩
  · rintro ⟨own, read, rfl⟩
    obtain ⟨last, run, closed⟩ := rest_iff.mp read
    obtain ⟨logical, last', there, after, same⟩ := transduce_simulates round round
      (fun state state' => Moved count state state')
      (fun made made' => made' = made.map (LogicalLine.moved count)) rfl
      (fun first second => by rw [first, second, List.map_append])
      (fun moved step => moved.round step) moved run
    exact rest_iff.mpr ⟨last', same ▸ there, after.depth.trans closed⟩

end Joining

section Append

variable {first second : List Char}

variable {logical : List LogicalLine}

theorem logicalLines_append (ended : Ended first) {outer : List LogicalLine}
    (read : logicalLines first = .ok outer) :
    logicalLines (first ++ second) = .ok logical ↔
      ∃ inner, logicalLines second = .ok inner ∧
        logical = outer ++ inner.map (LogicalLine.moved (lines first).length) := by
  obtain ⟨middle, run, shut⟩ := logicalLines_iff.mp read
  have numbered := Joining.numbered run
  have moved : Joining.Moved (lines first).length Joining.start middle :=
    ⟨numbered.number.trans (Nat.add_comm _ _), shut, numbered.shut shut,
      fun some => absurd rfl some⟩
  have whole : logicalLines second = Joining.start.rest (lines second) := rfl
  rw [logicalLines_iff, lines_append ended]
  constructor
  · rintro ⟨last, all, closed⟩
    obtain ⟨early, middle', late, before, after, rfl⟩ := transduce_append_iff.mp all
    cases run.symm.trans before
    obtain ⟨inner, there, rfl⟩ :=
      (Joining.rest_moved moved).mp (Joining.rest_iff.mpr ⟨last, after, closed⟩)
    exact ⟨inner, whole.trans there, rfl⟩
  · rintro ⟨inner, there, rfl⟩
    obtain ⟨last, after, closed⟩ :=
      Joining.rest_iff.mp ((Joining.rest_moved moved).mpr ⟨inner, whole.symm.trans there, rfl⟩)
    exact ⟨last, transduce_append_iff.mpr ⟨outer, middle, _, run, after, rfl⟩, closed⟩

/-- No parenthesis is open behind the text, if its lines can be read. -/
def Closed (text : List Char) : Prop :=
  ∀ made last, transduce Joining.round Joining.start (lines text) = .ok (made, last) →
    last.depth = 0

theorem closed_of_read (read : logicalLines first = .ok logical) : Closed first := by
  obtain ⟨last, run, shut⟩ := logicalLines_iff.mp read
  intro made found run'
  cases run.symm.trans run'
  exact shut

theorem exists_of_append (ended : Ended first) (closed : Closed first)
    (read : logicalLines (first ++ second) = .ok logical) :
    ∃ outer, logicalLines first = .ok outer := by
  rw [logicalLines_iff, lines_append ended] at read
  obtain ⟨last, all, _⟩ := read
  obtain ⟨early, middle, late, before, _, _⟩ := transduce_append_iff.mp all
  exact ⟨early, logicalLines_iff.mpr ⟨middle, before, closed early middle before⟩⟩

/-- Parentheses that are open where a complete text starts are open where it ends. -/
theorem closed_of_append (ended : Ended first) {inner : List LogicalLine}
    (alone : logicalLines second = .ok inner)
    (read : logicalLines (first ++ second) = .ok logical) :
    Closed first := by
  rw [logicalLines_iff, lines_append ended] at read
  obtain ⟨last, all, closed⟩ := read
  obtain ⟨early, middle, late, before, after, _⟩ := transduce_append_iff.mp all
  obtain ⟨own, run, shut⟩ := logicalLines_iff.mp alone
  obtain ⟨_, last', there, deep, _⟩ := transduce_simulates Joining.round Joining.round
    (fun state state' => state'.depth = state.depth + middle.depth) (fun _ _ => True) trivial
    (fun _ _ => trivial) (fun deeper step => by
      obtain ⟨made', next', there, depth⟩ := Joining.round_deeper middle.depth deeper step
      exact ⟨made', next', there, depth, trivial⟩) (Nat.zero_add _).symm run
  cases there.symm.trans after
  intro made found run'
  cases before.symm.trans run'
  omega

end Append

end Rdns.Zones
