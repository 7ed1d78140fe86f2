import Rdns.Zones.File

/-!
# Reading tokens back

The lexer is run on text that is written as tokens with single blanks between
them.  Words and quoted strings come back as they were, a line becomes one logical
line, and lines are found again where a line feed ends each of them.
-/

set_option autoImplicit false

namespace Rdns.Zones

open Rdns.Lib Rdns.Proto

/-! ## Single lines -/

def Tok.written : Tok → List Char
  | .word text => text.toList
  | .quoted text => '"' :: (text.toList ++ ['"'])

def Tok.Readable : Tok → Prop
  | .word text => text.toList ≠ [] ∧ ∀ c ∈ text.toList, isWordChar c = true
  | .quoted text => '"' ∉ text.toList

theorem isWordChar_of_rest {c : Char} (blank : ¬ isWhitespace c = true) (comment : c ≠ ';')
    (opening : c ≠ '(') (closing : c ≠ ')') (quote : c ≠ '"') : isWordChar c = true := by
  have dark : isWhitespace c = false := by simpa using blank
  simp [isWordChar, dark, comment, opening, closing, quote]

theorem isWordChar_cases {c : Char} (word : isWordChar c = true) :
    isWhitespace c = false ∧ c ≠ ';' ∧ c ≠ '(' ∧ c ≠ ')' ∧ c ≠ '"' := by
  rw [isWordChar, Bool.and_eq_true] at word
  obtain ⟨dark, other⟩ := word
  simp only [Bool.not_eq_true', Bool.or_eq_false_iff, beq_eq_false_iff_ne] at dark other
  exact ⟨dark, other.1.2, other.1.1.1, other.1.1.2, other.2⟩

section Loop

variable (lineNo : Nat)

theorem tokenizeLoop_fuel (bound : Nat) :
    ∀ (chars : List Char) (fuel fuel' depth : Nat) (toks : List Tok), chars.length ≤ bound →
      chars.length ≤ fuel → chars.length ≤ fuel' →
      tokenizeLoop lineNo fuel chars depth toks = tokenizeLoop lineNo fuel' chars depth toks := by
  induction bound with
  | zero =>
    intro chars fuel fuel' depth toks short _ _
    rw [List.length_eq_zero_iff.mp (Nat.le_zero.mp short)]
    cases fuel <;> cases fuel' <;> rfl
  | succ bound ih =>
    intro chars fuel fuel' depth toks short enough enough'
    cases chars with
    | nil => cases fuel <;> cases fuel' <;> rfl
    | cons c rest =>
      rw [List.length_cons] at short enough enough'
      obtain ⟨fuel, rfl⟩ : ∃ less, fuel = less + 1 := ⟨fuel - 1, by omega⟩
      obtain ⟨fuel', rfl⟩ : ∃ less, fuel' = less + 1 := ⟨fuel' - 1, by omega⟩
      have next : ∀ (after : List Char) (depth : Nat) (toks : List Tok), after <:+ rest →
          tokenizeLoop lineNo fuel after depth toks =
            tokenizeLoop lineNo fuel' after depth toks := by
        intro after depth toks suffix
        have shorter := suffix.length_le
        exact ih after fuel fuel' depth toks (by omega) (by omega) (by omega)
      unfold tokenizeLoop
      split_ifs with blank comment opening closing balanced quote
      · exact next rest depth toks (List.suffix_refl _)
      · rfl
      · exact next rest _ toks (List.suffix_refl _)
      · rfl
      · exact next rest _ toks (List.suffix_refl _)
      · split
        · rfl
        · rename_i mark after ended
          refine next after depth _ ?_
          have inside : mark :: after <:+ rest := ended ▸ List.dropWhile_suffix _
          exact (List.suffix_cons mark after).trans inside
      · refine next _ depth _ ?_
        rw [List.dropWhile_cons_of_pos (isWordChar_of_rest blank comment opening closing quote)]
        exact List.dropWhile_suffix _

def tokenizeRest (chars : List Char) (depth : Nat) (toks : List Tok) :
    Fallible ZoneError (List Tok × Nat) :=
  tokenizeLoop lineNo chars.length chars depth toks

theorem tokenizeRest_blank {c : Char} (blank : isWhitespace c = true) (rest : List Char)
    (depth : Nat) (toks : List Tok) :
    tokenizeRest lineNo (c :: rest) depth toks = tokenizeRest lineNo rest depth toks := by
  rw [tokenizeRest, List.length_cons, tokenizeLoop, if_pos blank]
  rfl

theorem tokenizeRest_blanks {blanks : List Char} (white : ∀ c ∈ blanks, isWhitespace c = true)
    (rest : List Char) (depth : Nat) (toks : List Tok) :
    tokenizeRest lineNo (blanks ++ rest) depth toks = tokenizeRest lineNo rest depth toks := by
  induction blanks with
  | nil => rfl
  | cons c tail ih =>
    obtain ⟨here, later⟩ := List.forall_mem_cons.mp white
    rw [List.cons_append, tokenizeRest_blank lineNo here, ih later]

theorem tokenizeRest_word {text rest : List Char} (filled : text ≠ [])
    (word : ∀ c ∈ text, isWordChar c = true) (ends : ∀ c ∈ rest.head?, isWordChar c = false)
    (depth : Nat) (toks : List Tok) :
    tokenizeRest lineNo (text ++ rest) depth toks =
      tokenizeRest lineNo rest depth (toks ++ [.word (String.ofList text)]) := by
  obtain ⟨c, tail, rfl⟩ := List.exists_cons_of_ne_nil filled
  obtain ⟨dark, comment, opening, closing, quote⟩ :=
    isWordChar_cases (word c List.mem_cons_self)
  have taken : ((c :: tail) ++ rest).takeWhile isWordChar = c :: tail := by
    rw [List.takeWhile_append_of_pos word]
    cases rest with
    | nil => exact List.append_nil _
    | cons next rest =>
      rw [List.takeWhile_cons_of_neg (by rw [ends next rfl]; exact Bool.false_ne_true),
        List.append_nil]
  have dropped : ((c :: tail) ++ rest).dropWhile isWordChar = rest := by
    rw [List.dropWhile_append_of_pos word]
    cases rest with
    | nil => rfl
    | cons next rest =>
      rw [List.dropWhile_cons_of_neg (by rw [ends next rfl]; exact Bool.false_ne_true)]
  rw [List.cons_append] at taken dropped
  rw [tokenizeRest, List.cons_append, List.length_cons, tokenizeLoop,
    if_neg (by rw [dark]; exact Bool.false_ne_true), if_neg comment, if_neg opening,
    if_neg closing, if_neg quote, taken, dropped]
  refine tokenizeLoop_fuel lineNo rest.length rest _ _ depth _ le_rfl ?_ le_rfl
  rw [List.length_append]
  omega

theorem tokenizeRest_quoted {text : List Char} (plain : '"' ∉ text) (rest : List Char)
    (depth : Nat) (toks : List Tok) :
    tokenizeRest lineNo ('"' :: (text ++ '"' :: rest)) depth toks =
      tokenizeRest lineNo rest depth (toks ++ [.quoted (String.ofList text)]) := by
  have inside : ∀ c ∈ text, (c != '"') = true := by
    intro c member
    rw [bne_iff_ne]
    intro same
    rw [same] at member
    exact plain member
  have taken : (text ++ '"' :: rest).takeWhile (· != '"') = text := by
    rw [List.takeWhile_append_of_pos inside, List.takeWhile_cons_of_neg (by simp), List.append_nil]
  have dropped : (text ++ '"' :: rest).dropWhile (· != '"') = '"' :: rest := by
    rw [List.dropWhile_append_of_pos inside, List.dropWhile_cons_of_neg (by simp)]
  rw [tokenizeRest, List.length_cons, tokenizeLoop, if_neg (by decide), if_neg (by decide),
    if_neg (by decide), if_neg (by decide), if_pos rfl, taken, dropped]
  refine tokenizeLoop_fuel lineNo rest.length rest _ _ depth _ le_rfl ?_ le_rfl
  rw [List.length_append, List.length_cons]
  omega

theorem tokenizeRest_written {tok : Tok} (readable : tok.Readable) {rest : List Char}
    (ends : ∀ c ∈ rest.head?, isWordChar c = false) (depth : Nat) (toks : List Tok) :
    tokenizeRest lineNo (tok.written ++ rest) depth toks =
      tokenizeRest lineNo rest depth (toks ++ [tok]) := by
  cases tok with
  | word text =>
    have read := tokenizeRest_word lineNo readable.1 readable.2 ends depth toks
    rwa [String.ofList_toList] at read
  | quoted text =>
    have read := tokenizeRest_quoted lineNo readable rest depth toks
    rw [String.ofList_toList] at read
    rw [← read, Tok.written, List.cons_append, List.append_assoc]
    rfl

theorem tokenizeRest_spaced {tail : List Char} (ends : ∀ c ∈ tail.head?, isWordChar c = false)
    (depth : Nat) (line : List Tok) :
    ∀ toks : List Tok, (∀ tok ∈ line, tok.Readable) →
      tokenizeRest lineNo (spaced (line.map Tok.written) ++ tail) depth toks =
        tokenizeRest lineNo tail depth (toks ++ line) := by
  induction line with
  | nil =>
    intro toks _
    rw [List.append_nil]
    rfl
  | cons tok rest ih =>
    intro toks readable
    obtain ⟨here, later⟩ := List.forall_mem_cons.mp readable
    cases rest with
    | nil =>
      rw [spaced, List.map_cons, List.map_nil, List.intercalate_singleton]
      exact tokenizeRest_written lineNo here ends depth toks
    | cons next rest =>
      have shape : spaced ((tok :: next :: rest).map Tok.written) ++ tail =
          tok.written ++ ' ' :: (spaced ((next :: rest).map Tok.written) ++ tail) := by
        rw [spaced, List.map_cons, List.map_cons, List.intercalate_cons_cons]
        simp [spaced]
      rw [shape, tokenizeRest_written lineNo here (by intro c member; cases member; decide),
        tokenizeRest_blank lineNo (by decide), ih (toks ++ [tok]) later, List.append_assoc]
      rfl

end Loop

theorem tokenizeLine_spaced {line : List Tok} (readable : ∀ tok ∈ line, tok.Readable)
    {tail : List Char} (blank : ∀ c ∈ tail, isWhitespace c = true) (depth lineNo : Nat) :
    tokenizeLine (String.ofList (spaced (line.map Tok.written) ++ tail)) depth lineNo =
      .ok (line, depth) := by
  have ends : ∀ c ∈ tail.head?, isWordChar c = false := by
    intro c member
    rw [isWordChar, blank c (List.mem_of_mem_head? member)]
    rfl
  have skipped := tokenizeRest_blanks lineNo blank [] depth line
  rw [List.append_nil] at skipped
  unfold tokenizeLine
  rw [String.toList_ofList]
  change tokenizeRest lineNo _ depth [] = _
  rw [tokenizeRest_spaced lineNo ends depth line [] readable, List.nil_append, skipped]
  rfl

/-! ## Physical and logical lines -/

theorem linesFrom_line {line : List Char} (single : '\n' ∉ line) (rest : List Char) :
    ∀ current, linesFrom current (line ++ '\n' :: rest) =
      stripCr (current ++ line) :: linesFrom [] rest := by
  induction line with
  | nil =>
    intro current
    rw [List.nil_append, linesFrom, if_pos rfl, List.append_nil]
  | cons c tail ih =>
    intro current
    have here : '\n' ≠ c := List.ne_of_not_mem_cons single
    have later : '\n' ∉ tail := List.not_mem_of_not_mem_cons single
    rw [List.cons_append, linesFrom, if_neg here.symm, ih later, List.append_assoc]
    rfl

theorem lines_ended (physical : List (List Char)) (single : ∀ line ∈ physical, '\n' ∉ line)
    (open_ : ∀ line ∈ physical, line.getLast? ≠ some '\r') :
    lines (physical.flatMap fun line => line ++ ['\n']) = physical := by
  unfold lines
  induction physical with
  | nil => rfl
  | cons line rest ih =>
    obtain ⟨here, later⟩ := List.forall_mem_cons.mp single
    obtain ⟨last, others⟩ := List.forall_mem_cons.mp open_
    rw [List.flatMap_cons, List.append_assoc, List.singleton_append, linesFrom_line here,
      ih later others, List.nil_append, stripCr, if_neg last]

def numbered : Nat → List (List Tok) → List LogicalLine
  | _, [] => []
  | lineNo, toks :: rest => ⟨lineNo, false, toks⟩ :: numbered (lineNo + 1) rest

def ReadsAs (raw : List Char) (toks : List Tok) : Prop :=
  toks ≠ [] ∧ startsBlank raw = false ∧
    ∀ lineNo, tokenizeLine (String.ofList raw) 0 lineNo = .ok (toks, 0)

theorem logicalLoop_line {raw : List Char} {toks : List Tok} (reads : ReadsAs raw toks)
    (rest : List (List Char)) (lineNo currentLine : Nat) (currentWs : Bool) :
    logicalLoop lineNo (raw :: rest) 0 [] currentLine currentWs =
      logicalLoop (lineNo + 1) rest 0 [] lineNo false >>= fun later =>
        pure (⟨lineNo, false, toks⟩ :: later) := by
  obtain ⟨filled, flush, read⟩ := reads
  have some : toks.isEmpty = false := by simpa using filled
  rw [logicalLoop, read lineNo]
  simp only [bind, Except.bind, List.isEmpty_nil, some, Bool.not_false, Bool.and_self, if_true,
    flush, List.nil_append, decide_true]

theorem logicalLoop_skip {raw : List Char} {lineNo : Nat}
    (skipped : tokenizeLine (String.ofList raw) 0 lineNo = .ok ([], 0)) (rest : List (List Char))
    (currentLine : Nat) (currentWs : Bool) :
    logicalLoop lineNo (raw :: rest) 0 [] currentLine currentWs =
      logicalLoop (lineNo + 1) rest 0 [] currentLine currentWs := by
  rw [logicalLoop, skipped]
  rfl

theorem logicalLoop_numbered {α : Type} (raw : α → List Char) (toks : α → List Tok) :
    ∀ (items : List α) (lineNo currentLine : Nat) (currentWs : Bool),
      (∀ item ∈ items, ReadsAs (raw item) (toks item)) →
      logicalLoop lineNo (items.map raw) 0 [] currentLine currentWs =
        .ok (numbered lineNo (items.map toks)) := by
  intro items
  induction items with
  | nil =>
    intro lineNo currentLine currentWs _
    rfl
  | cons item rest ih =>
    intro lineNo currentLine currentWs good
    obtain ⟨here, later⟩ := List.forall_mem_cons.mp good
    rw [List.map_cons, logicalLoop_line here, ih (lineNo + 1) lineNo false later]
    rfl

end Rdns.Zones
