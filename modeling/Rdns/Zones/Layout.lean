import Mathlib.Data.List.TakeWhile
import Rdns.Zones.Lexing

/-!
# Parenthesised continuation

A line of tokens may be spread over several physical lines once a parenthesis is open:
`logical_lines` joins them again.  The text between the parentheses is cut where no
token is, the pieces may be indented and end in comments, and carriage returns before
the line feeds do not matter.
-/

set_option autoImplicit false

namespace Rdns.Zones

open Rdns.Lib Rdns.Proto

/-! ## One round after the other -/

/-- A text as the loop of `tokenize_line` goes through it. -/
inductive Scan : List Char → Prop
  | done : Scan []
  | blank {c : Char} {rest : List Char} (white : isWhitespace c = true) (later : Scan rest) :
      Scan (c :: rest)
  | comment (rest : List Char) : Scan (';' :: rest)
  | opening {rest : List Char} (later : Scan rest) : Scan ('(' :: rest)
  | closing {rest : List Char} (later : Scan rest) : Scan (')' :: rest)
  | unclosed {rest : List Char} (unclosed : '"' ∉ rest) : Scan ('"' :: rest)
  | quoted {text rest : List Char} (bare : '"' ∉ text) (later : Scan rest) :
      Scan ('"' :: (text ++ '"' :: rest))
  | word {text rest : List Char} (filled : text ≠ []) (chars : ∀ c ∈ text, isWordChar c = true)
      (ends : ∀ c ∈ rest.head?, isWordChar c = false) (later : Scan rest) : Scan (text ++ rest)

theorem exists_word (text : List Char) :
    ∃ word after, text = word ++ after ∧ (∀ c ∈ word, isWordChar c = true) ∧
      ∀ c ∈ after.head?, isWordChar c = false := by
  refine ⟨text.takeWhile isWordChar, text.dropWhile isWordChar,
    List.takeWhile_append_dropWhile.symm, fun c member => List.mem_takeWhile_imp member, ?_⟩
  intro c first
  have stops := List.head?_dropWhile_not isWordChar text
  rw [first] at stops
  exact stops

theorem scan_of_length (bound : Nat) : ∀ text : List Char, text.length ≤ bound → Scan text := by
  induction bound with
  | zero =>
    intro text short
    cases List.length_eq_zero_iff.mp (Nat.le_zero.mp short)
    exact .done
  | succ bound ih =>
    intro text short
    cases text with
    | nil => exact .done
    | cons c rest =>
      rw [List.length_cons] at short
      have later : Scan rest := ih rest (by omega)
      by_cases white : isWhitespace c = true
      · exact .blank white later
      by_cases comment : c = ';'
      · exact comment ▸ .comment rest
      by_cases opening : c = '('
      · exact opening ▸ .opening later
      by_cases closing : c = ')'
      · exact closing ▸ .closing later
      by_cases quote : c = '"'
      · subst quote
        by_cases closed : '"' ∈ rest
        · obtain ⟨text, after, rfl, bare⟩ := List.eq_append_cons_of_mem closed
          rw [List.length_append, List.length_cons] at short
          exact .quoted bare (ih after (by omega))
        · exact .unclosed closed
      · obtain ⟨word, after, shape, chars, stops⟩ := exists_word (c :: rest)
        have first := isWordChar_of_rest white comment opening closing quote
        have filled : word ≠ [] := by
          rintro rfl
          rw [List.nil_append] at shape
          rw [stops c (by rw [← shape]; rfl)] at first
          cases first
        have size := congrArg List.length shape
        have long := List.length_pos_iff.mpr filled
        rw [List.length_cons, List.length_append] at size
        rw [shape]
        exact .word filled chars stops (ih after (by omega))

theorem scan (text : List Char) : Scan text := scan_of_length text.length text le_rfl

section Rounds

variable (lineNo depth : Nat)

theorem tokenizeRest_comment (text : List Char) (before : List Tok) :
    tokenizeRest lineNo (';' :: text) depth before = .ok (before, depth) := by
  rw [Zones.tokenizeRest, List.length_cons, tokenizeLoop, if_neg (by decide), if_pos rfl]

theorem tokenizeRest_opening (rest : List Char) (before : List Tok) :
    tokenizeRest lineNo ('(' :: rest) depth before =
      tokenizeRest lineNo rest (depth + 1) before := by
  rw [Zones.tokenizeRest, List.length_cons, tokenizeLoop, if_neg (by decide), if_neg (by decide),
    if_pos rfl]
  rfl

theorem tokenizeRest_closing (rest : List Char) (before : List Tok) :
    tokenizeRest lineNo (')' :: rest) depth before =
      if depth = 0 then err lineNo "unbalanced ')'"
      else tokenizeRest lineNo rest (depth - 1) before := by
  rw [Zones.tokenizeRest, List.length_cons, tokenizeLoop, if_neg (by decide), if_neg (by decide),
    if_neg (by decide), if_pos rfl]
  rfl

theorem tokenizeRest_unclosed {rest : List Char} (unclosed : '"' ∉ rest) (before : List Tok) :
    tokenizeRest lineNo ('"' :: rest) depth before = err lineNo "unterminated quoted string" := by
  have dropped : rest.dropWhile (· != '"') = [] := by
    rw [List.dropWhile_eq_nil_iff]
    intro c member
    rw [bne_iff_ne]
    rintro rfl
    exact unclosed member
  rw [Zones.tokenizeRest, List.length_cons, tokenizeLoop, if_neg (by decide), if_neg (by decide),
    if_neg (by decide), if_neg (by decide), if_pos rfl, dropped]

end Rounds

/-! ## Text without parentheses and comments -/

def unquoted : Bool → List Char → List Char
  | _, [] => []
  | inside, c :: rest =>
    if c = '"' then unquoted (!inside) rest
    else if inside then unquoted inside rest
    else c :: unquoted inside rest

/-- A text without parentheses or comments, and its tokens. -/
structure Tokenizes (text : List Char) (toks : List Tok) : Prop where
  plain : ∀ c ∈ unquoted false text, c ≠ '(' ∧ c ≠ ')' ∧ c ≠ ';'
  tokens : tokenizeLine (String.ofList text) 0 1 = .ok (toks, 0)

/-- The same as a relation that follows the text from token to token. -/
inductive Lexes : List Char → List Tok → Prop
  | done : Lexes [] []
  | blank {c : Char} {rest : List Char} {toks : List Tok} (white : isWhitespace c = true)
      (later : Lexes rest toks) : Lexes (c :: rest) toks
  | word {text rest : List Char} {toks : List Tok} (filled : text ≠ [])
      (chars : ∀ c ∈ text, isWordChar c = true) (ends : ∀ c ∈ rest.head?, isWordChar c = false)
      (later : Lexes rest toks) : Lexes (text ++ rest) (.word (String.ofList text) :: toks)
  | quoted {text rest : List Char} {toks : List Tok} (closed : '"' ∉ text)
      (later : Lexes rest toks) :
      Lexes ('"' :: (text ++ '"' :: rest)) (.quoted (String.ofList text) :: toks)

theorem unquoted_quoted {text : List Char} (closed : '"' ∉ text) (rest : List Char) :
    unquoted false ('"' :: (text ++ '"' :: rest)) = unquoted false rest := by
  have inside : ∀ text : List Char, '"' ∉ text →
      unquoted true (text ++ '"' :: rest) = unquoted false rest := by
    intro text
    induction text with
    | nil =>
      intro _
      rw [List.nil_append, unquoted, if_pos rfl]
      rfl
    | cons c tail ih =>
      intro closed
      have other : c ≠ '"' := (List.ne_of_not_mem_cons closed).symm
      rw [List.cons_append, unquoted, if_neg other, if_pos rfl]
      exact ih (List.not_mem_of_not_mem_cons closed)
  rw [unquoted, if_pos rfl]
  exact inside text closed

theorem unquoted_word {text : List Char} (bare : '"' ∉ text) (rest : List Char) :
    unquoted false (text ++ rest) = text ++ unquoted false rest := by
  induction text with
  | nil => rfl
  | cons c tail ih =>
    have other : c ≠ '"' := (List.ne_of_not_mem_cons bare).symm
    rw [List.cons_append, unquoted, if_neg other, if_neg Bool.false_ne_true,
      ih (List.not_mem_of_not_mem_cons bare)]
    rfl

theorem ne_quote_of_blank {c : Char} (white : isWhitespace c = true) : c ≠ '"' := by
  rintro rfl
  cases white

section Lexing

variable (lineNo depth : Nat)

/-- What the loop reads from such a text it reads whatever stands after it. -/
theorem Lexes.tokenizeRest {text : List Char} {toks : List Tok} (lexes : Lexes text toks)
    {tail : List Char} (ends : ∀ c ∈ tail.head?, isWordChar c = false) :
    ∀ before : List Tok, tokenizeRest lineNo (text ++ tail) depth before =
      tokenizeRest lineNo tail depth (before ++ toks) := by
  induction lexes with
  | done =>
    intro before
    rw [List.nil_append, List.append_nil]
  | blank white _ ih =>
    intro before
    rw [List.cons_append, tokenizeRest_blank lineNo white, ih]
  | @word text rest toks filled chars stops _ ih =>
    intro before
    have next : ∀ c ∈ (rest ++ tail).head?, isWordChar c = false := by
      cases rest with
      | nil => exact ends
      | cons c rest => exact stops
    rw [List.append_assoc, tokenizeRest_word lineNo filled chars next, ih, List.append_assoc]
    rfl
  | quoted closed _ ih =>
    intro before
    rw [List.cons_append, List.append_assoc, List.cons_append,
      tokenizeRest_quoted lineNo closed, ih, List.append_assoc]
    rfl

theorem Lexes.tokenizeLine {text : List Char} {toks : List Tok} (lexes : Lexes text toks) :
    tokenizeLine (String.ofList text) depth lineNo = .ok (toks, depth) := by
  have ends : ∀ c ∈ ([] : List Char).head?, isWordChar c = false := by
    intro c member
    cases member
  have read := lexes.tokenizeRest lineNo depth ends []
  rw [List.append_nil, List.nil_append] at read
  unfold Zones.tokenizeLine
  rw [String.toList_ofList]
  exact read

/-- Conversely, without parentheses and comments the loop returns only for such a text. -/
theorem lexes_of_tokenizeRest {text : List Char} {toks : List Tok} {last : Nat}
    (plain : ∀ c ∈ unquoted false text, c ≠ '(' ∧ c ≠ ')' ∧ c ≠ ';') {before : List Tok}
    (read : tokenizeRest lineNo text depth before = .ok (toks, last)) :
    ∃ own, Lexes text own ∧ toks = before ++ own := by
  induction scan text generalizing before with
  | done =>
    cases read
    exact ⟨[], .done, (List.append_nil _).symm⟩
  | @blank c rest white _ ih =>
    rw [unquoted, if_neg (ne_quote_of_blank white), if_neg Bool.false_ne_true] at plain
    rw [tokenizeRest_blank lineNo white] at read
    obtain ⟨own, lexes, same⟩ := ih (fun c member => plain c (List.mem_cons_of_mem _ member)) read
    exact ⟨own, .blank white lexes, same⟩
  | comment rest => exact absurd rfl (plain ';' List.mem_cons_self).2.2
  | opening => exact absurd rfl (plain '(' List.mem_cons_self).1
  | closing => exact absurd rfl (plain ')' List.mem_cons_self).2.1
  | unclosed unclosed =>
    rw [tokenizeRest_unclosed lineNo depth unclosed] at read
    cases read
  | quoted bare _ ih =>
    rw [unquoted_quoted bare] at plain
    rw [tokenizeRest_quoted lineNo bare] at read
    obtain ⟨own, lexes, same⟩ := ih plain read
    refine ⟨_, .quoted bare lexes, ?_⟩
    rw [same, List.append_assoc]
    rfl
  | word filled chars stops _ ih =>
    have bare : ∀ c ∈ _, c ≠ '"' := fun c inside => (isWordChar_cases (chars c inside)).2.2.2.2
    rw [unquoted_word fun inside => bare _ inside rfl] at plain
    rw [tokenizeRest_word lineNo filled chars stops] at read
    obtain ⟨own, lexes, same⟩ :=
      ih (fun c member => plain c (List.mem_append_right _ member)) read
    refine ⟨_, .word filled chars stops lexes, ?_⟩
    rw [same, List.append_assoc]
    rfl

end Lexing

theorem Tokenizes.lexes {text : List Char} {toks : List Tok} (reads : Tokenizes text toks) :
    Lexes text toks := by
  have read := reads.tokens
  unfold tokenizeLine at read
  rw [String.toList_ofList] at read
  obtain ⟨own, lexes, same⟩ := lexes_of_tokenizeRest 1 0 reads.plain read
  rw [same]
  exact lexes

/-! ## Carriage returns -/

/-- White space at the end of a line is nothing, also in a comment or an open string. -/
theorem tokenizeRest_trailing (lineNo : Nat) {w : Char} (white : isWhitespace w = true)
    (text : List Char) : ∀ (depth : Nat) (before : List Tok),
      tokenizeRest lineNo (text ++ [w]) depth before = tokenizeRest lineNo text depth before := by
  have ends : isWordChar w = false := by
    rw [isWordChar, white]
    rfl
  induction scan text with
  | done =>
    intro depth before
    exact tokenizeRest_blank lineNo white [] depth before
  | blank blank _ ih =>
    intro depth before
    rw [List.cons_append, tokenizeRest_blank lineNo blank, tokenizeRest_blank lineNo blank, ih]
  | comment rest =>
    intro depth before
    rw [List.cons_append, tokenizeRest_comment, tokenizeRest_comment]
  | opening _ ih =>
    intro depth before
    rw [List.cons_append, tokenizeRest_opening, tokenizeRest_opening, ih]
  | closing _ ih =>
    intro depth before
    rw [List.cons_append, tokenizeRest_closing, tokenizeRest_closing, ih]
  | @unclosed rest unclosed =>
    intro depth before
    have longer : '"' ∉ rest ++ [w] := by
      rw [List.mem_append, List.mem_singleton, not_or]
      exact ⟨unclosed, (ne_quote_of_blank white).symm⟩
    rw [List.cons_append, tokenizeRest_unclosed lineNo depth longer,
      tokenizeRest_unclosed lineNo depth unclosed]
  | quoted bare _ ih =>
    intro depth before
    rw [List.cons_append, List.append_assoc, List.cons_append, tokenizeRest_quoted lineNo bare,
      tokenizeRest_quoted lineNo bare, ih]
  | @word text rest filled chars stops _ ih =>
    intro depth before
    have next : ∀ c ∈ (rest ++ [w]).head?, isWordChar c = false := by
      cases rest with
      | nil =>
        intro c first
        cases first
        exact ends
      | cons c rest => exact stops
    rw [List.append_assoc, tokenizeRest_word lineNo filled chars next,
      tokenizeRest_word lineNo filled chars stops, ih]

theorem stripCr_cases (raw : List Char) :
    stripCr raw = raw ∨ raw = stripCr raw ++ ['\r'] := by
  unfold stripCr
  split
  · rename_i ending
    exact Or.inr (List.dropLast_append_getLast? _ ending).symm
  · exact Or.inl rfl

theorem tokenizeLine_stripCr (raw : List Char) (depth lineNo : Nat) :
    tokenizeLine (String.ofList (stripCr raw)) depth lineNo =
      tokenizeLine (String.ofList raw) depth lineNo := by
  rcases stripCr_cases raw with same | longer
  · rw [same]
  · have trailing := tokenizeRest_trailing lineNo (by decide : isWhitespace '\r' = true)
      (stripCr raw) depth []
    rw [← longer] at trailing
    unfold tokenizeLine
    rw [String.toList_ofList, String.toList_ofList]
    exact trailing.symm

theorem startsBlank_stripCr (raw : List Char) : startsBlank (stripCr raw) = startsBlank raw := by
  rcases stripCr_cases raw with same | longer
  · rw [same]
  · generalize stripCr raw = short at longer
    subst longer
    cases short with
    | nil => rfl
    | cons c rest => rfl

def Alike (left right : List Char) : Prop :=
  (∀ depth lineNo, tokenizeLine (String.ofList left) depth lineNo =
    tokenizeLine (String.ofList right) depth lineNo) ∧ startsBlank left = startsBlank right

theorem alike_stripCr (raw : List Char) : Alike (stripCr raw) raw :=
  ⟨tokenizeLine_stripCr raw, startsBlank_stripCr raw⟩

theorem logicalLoop_alike {lefts rights : List (List Char)}
    (alike : List.Forall₂ Alike lefts rights) : ∀ (lineNo depth : Nat) (current : List Tok)
    (currentLine : Nat) (currentWs : Bool),
    logicalLoop lineNo lefts depth current currentLine currentWs =
      logicalLoop lineNo rights depth current currentLine currentWs := by
  induction alike with
  | nil =>
    intro lineNo depth current currentLine currentWs
    rfl
  | cons here _ ih =>
    intro lineNo depth current currentLine currentWs
    rw [logicalLoop, logicalLoop, here.1, here.2]
    simp only [ih]

/-! ## Physical lines -/

/-- Lines with line feeds between them, and possibly one at the end. -/
def joinLines (ended : Bool) : List (List Char) → List Char
  | [] => []
  | [last] => last ++ if ended then ['\n'] else []
  | line :: rest => line ++ '\n' :: joinLines ended rest

theorem linesFrom_last {line : List Char} (single : '\n' ∉ line) :
    ∀ current, current ++ line ≠ [] → linesFrom current line = [current ++ line] := by
  induction line with
  | nil =>
    intro current filled
    rw [List.append_nil] at filled ⊢
    rw [linesFrom, if_neg (by simpa using filled)]
  | cons c rest ih =>
    intro current filled
    have here : '\n' ≠ c := List.ne_of_not_mem_cons single
    have shift : current ++ c :: rest = current ++ [c] ++ rest := by simp
    rw [shift] at filled ⊢
    rw [linesFrom, if_neg here.symm]
    exact ih (List.not_mem_of_not_mem_cons single) _ filled

theorem lines_joinLines (ended : Bool) : ∀ {raws : List (List Char)},
    (∀ raw ∈ raws, '\n' ∉ raw) → raws.getLast? ≠ some [] →
      List.Forall₂ Alike (lines (joinLines ended raws)) raws := by
  intro raws
  unfold lines
  induction raws with
  | nil =>
    intro _ _
    exact .nil
  | cons raw rest ih =>
    intro single filled
    obtain ⟨here, later⟩ := List.forall_mem_cons.mp single
    cases rest with
    | nil =>
      have some : raw ≠ [] := fun empty => filled (by rw [empty]; rfl)
      cases ended with
      | true =>
        have read := linesFrom_line here [] []
        rw [joinLines, if_pos rfl, read]
        exact .cons (alike_stripCr raw) .nil
      | false =>
        rw [joinLines, if_neg Bool.false_ne_true, List.append_nil,
          linesFrom_last here [] some]
        exact .cons ⟨fun _ _ => rfl, rfl⟩ .nil
    | cons next rest =>
      rw [joinLines, linesFrom_line here]
      · refine .cons (alike_stripCr raw) (ih later ?_)
        rwa [List.getLast?_cons_cons] at filled
      · simp

theorem logicalLines_joinLines (ended : Bool) {raws : List (List Char)}
    (single : ∀ raw ∈ raws, '\n' ∉ raw) (filled : raws.getLast? ≠ some []) :
    logicalLines (joinLines ended raws) = logicalLoop 1 raws 0 [] 0 false :=
  logicalLoop_alike (lines_joinLines ended single filled) 1 0 [] 0 false

/-! ## Pieces of a line -/

structure Piece where
  blanks : List Char
  chunk : List Char
  toks : List Tok
  comment : Option (List Char)

def commentText : Option (List Char) → List Char
  | none => []
  | some text => ';' :: text

namespace Piece

/-- White space in front, a chunk that is cut out where no token is, and a comment, all on
one line. -/
structure Formed (piece : Piece) : Prop where
  indented : ∀ c ∈ piece.blanks, isWhitespace c = true
  reads : Tokenizes piece.chunk piece.toks
  oneLine : '\n' ∉ piece.blanks ∧ '\n' ∉ commentText piece.comment

def text (piece : Piece) (closes : Bool) : List Char :=
  piece.blanks ++ (piece.chunk ++ ((if closes then [')'] else []) ++ commentText piece.comment))

theorem Formed.single {piece : Piece} (formed : piece.Formed) (chunk : '\n' ∉ piece.chunk)
    (closes : Bool) : '\n' ∉ piece.text closes := by
  have closing : '\n' ∉ if closes then [')'] else [] := by cases closes <;> decide
  exact List.not_mem_append formed.oneLine.1
    (List.not_mem_append chunk (List.not_mem_append closing formed.oneLine.2))

theorem tokenizeRest_text {piece : Piece} (formed : piece.Formed) (lineNo depth : Nat)
    (closes : Bool) (before : List Tok) :
    tokenizeRest lineNo (piece.text closes) (depth + 1) before =
      .ok (before ++ piece.toks, if closes then depth else depth + 1) := by
  have outside : ∀ c ∈ (commentText piece.comment).head?, isWordChar c = false := by
    cases piece.comment with
    | none =>
      intro c none
      cases none
    | some text =>
      intro c first
      cases first
      decide
  have commented : ∀ (depth : Nat) (toks : List Tok),
      tokenizeRest lineNo (commentText piece.comment) depth toks = .ok (toks, depth) := by
    intro depth toks
    cases piece.comment with
    | none => rfl
    | some text => exact tokenizeRest_comment lineNo depth text toks
  rw [text, tokenizeRest_blanks lineNo formed.indented]
  cases closes with
  | true =>
    have closed : ∀ c ∈ ([')'] ++ commentText piece.comment).head?, isWordChar c = false := by
      intro c first
      cases first
      decide
    rw [if_pos rfl, formed.reads.lexes.tokenizeRest lineNo (depth + 1) closed,
      List.singleton_append, tokenizeRest_closing, if_neg (Nat.succ_ne_zero depth), commented]
    rfl
  | false =>
    rw [if_neg Bool.false_ne_true, List.nil_append,
      formed.reads.lexes.tokenizeRest lineNo (depth + 1) outside, commented]
    rfl

theorem tokenizeLine_text {piece : Piece} (formed : piece.Formed) (lineNo depth : Nat)
    (closes : Bool) :
    tokenizeLine (String.ofList (piece.text closes)) (depth + 1) lineNo =
      .ok (piece.toks, if closes then depth else depth + 1) := by
  unfold tokenizeLine
  rw [String.toList_ofList]
  exact tokenizeRest_text formed lineNo depth closes []

end Piece

def layout (opening : List Char) : List Piece → List (List Char)
  | [] => []
  | [last] => [opening ++ last.text true]
  | piece :: rest => (opening ++ piece.text false) :: layout [] rest

theorem layout_single : ∀ {pieces : List Piece} {opening : List Char}, '\n' ∉ opening →
    (∀ piece ∈ pieces, '\n' ∉ piece.chunk) → (∀ piece ∈ pieces, piece.Formed) →
    ∀ raw ∈ layout opening pieces, '\n' ∉ raw := by
  intro pieces
  induction pieces with
  | nil =>
    intro opening _ _ _ raw none
    cases none
  | cons piece rest ih =>
    intro opening start chunks formed
    obtain ⟨chunk, chunks⟩ := List.forall_mem_cons.mp chunks
    obtain ⟨here, later⟩ := List.forall_mem_cons.mp formed
    have line : ∀ closes, '\n' ∉ opening ++ piece.text closes := fun closes =>
      List.not_mem_append start (here.single chunk closes)
    cases rest with
    | nil => exact List.forall_mem_singleton.mpr (line true)
    | cons next rest =>
      exact List.forall_mem_cons.mpr
        ⟨line false, ih List.not_mem_nil chunks later⟩

theorem layout_filled : ∀ (pieces : List Piece) (opening : List Char),
    (layout opening pieces).getLast? ≠ some [] := by
  intro pieces
  induction pieces with
  | nil =>
    intro opening none
    cases none
  | cons piece rest ih =>
    intro opening
    cases rest with
    | nil => simp [layout, Piece.text]
    | cons next rest =>
      have more : layout [] (next :: rest) ≠ [] := by cases rest <;> simp [layout]
      obtain ⟨line, lines, shape⟩ := List.exists_cons_of_ne_nil more
      have last := ih []
      rw [shape] at last
      rw [layout, shape, List.getLast?_cons_cons]
      · exact last
      · simp

structure Cut (line : List Char) (first : Tok) (rest : List Tok) (head : List Char)
    (pieces : List Piece) : Prop where
  some : pieces ≠ []
  shape : line = head ++ (pieces.map Piece.chunk).flatten
  opens : Tokenizes head [first]
  formed : ∀ piece ∈ pieces, piece.Formed
  tokens : rest = (pieces.map Piece.toks).flatten

/-! ## One logical line -/

section Line

variable {raw : List Char} {lineNo depth currentLine : Nat} {currentWs : Bool}
  {current toks : List Tok}

theorem logicalLoop_open {left : Nat} (rest : List (List Char))
    (read : tokenizeLine (String.ofList raw) depth lineNo = .ok (toks, left + 1)) :
    logicalLoop lineNo (raw :: rest) depth current currentLine currentWs =
      logicalLoop (lineNo + 1) rest (left + 1) (current ++ toks)
        (if current.isEmpty && !toks.isEmpty then lineNo else currentLine)
        (if current.isEmpty && !toks.isEmpty then startsBlank raw else currentWs) := by
  rw [logicalLoop, read]
  rfl

theorem logicalLoop_last (read : tokenizeLine (String.ofList raw) depth lineNo = .ok (toks, 0))
    (filled : current ++ toks ≠ []) :
    logicalLoop lineNo [raw] depth current currentLine currentWs =
      .ok [⟨if current.isEmpty && !toks.isEmpty then lineNo else currentLine,
        if current.isEmpty && !toks.isEmpty then startsBlank raw else currentWs,
        current ++ toks⟩] := by
  have some : (current ++ toks).isEmpty = false := by simpa using filled
  rw [logicalLoop, read]
  simp only [bind, Except.bind, some, decide_true, Bool.not_false, Bool.and_self, if_true]
  rfl

end Line

theorem logicalLoop_inside {currentLine : Nat} {currentWs : Bool} : ∀ {pieces : List Piece}
    {lineNo : Nat} {current : List Tok}, pieces ≠ [] → (∀ piece ∈ pieces, piece.Formed) →
    current ≠ [] →
    logicalLoop lineNo (layout [] pieces) 1 current currentLine currentWs =
      .ok [⟨currentLine, currentWs, current ++ (pieces.map Piece.toks).flatten⟩] := by
  intro pieces
  induction pieces with
  | nil =>
    intro lineNo current none
    exact absurd rfl none
  | cons piece rest ih =>
    intro lineNo current _ formed filled
    obtain ⟨here, later⟩ := List.forall_mem_cons.mp formed
    have some : current.isEmpty = false := by simpa using filled
    have longer : current ++ piece.toks ≠ [] := List.append_ne_nil_of_left_ne_nil filled _
    cases rest with
    | nil =>
      rw [layout, List.nil_append, logicalLoop_last (piece.tokenizeLine_text here lineNo 0 true)
        longer, some]
      simp
    | cons next rest =>
      rw [layout, List.nil_append,
        logicalLoop_open _ (piece.tokenizeLine_text here lineNo 0 false), some]
      · refine (ih (List.cons_ne_nil _ _) later longer).trans ?_
        rw [List.map_cons, List.flatten_cons, List.append_assoc]
        rfl
      · simp

section Opening

variable {head : List Char} {first : Tok}

theorem tokenizeLine_opening (opens : Tokenizes head [first]) {piece : Piece}
    (formed : piece.Formed) (lineNo : Nat) (closes : Bool) :
    tokenizeLine (String.ofList (head ++ '(' :: piece.text closes)) 0 lineNo =
      .ok (first :: piece.toks, if closes then 0 else 1) := by
  have outside : ∀ c ∈ ('(' :: piece.text closes).head?, isWordChar c = false := by
    intro c found
    cases found
    decide
  have inside := piece.tokenizeRest_text formed lineNo 0 closes [first]
  unfold tokenizeLine
  rw [String.toList_ofList]
  change tokenizeRest lineNo _ 0 [] = _
  rw [opens.lexes.tokenizeRest lineNo 0 outside, tokenizeRest_opening]
  exact inside

theorem Tokenizes.ne_nil (opens : Tokenizes head [first]) : head ≠ [] := by
  rintro rfl
  cases opens.tokens

/-- Text that holds a token decides whether its line starts with white space. -/
theorem startsBlank_append (opens : Tokenizes head [first]) (tail : List Char) :
    startsBlank (head ++ tail) = startsBlank head := by
  cases head with
  | nil => exact absurd rfl opens.ne_nil
  | cons c rest => rfl

end Opening

theorem logicalLoop_layout {head : List Char} {first : Tok} (opens : Tokenizes head [first])
    {pieces : List Piece} (some : pieces ≠ []) (formed : ∀ piece ∈ pieces, piece.Formed) :
    logicalLoop 1 (layout (head ++ ['(']) pieces) 0 [] 0 false =
      .ok [⟨1, startsBlank head, first :: (pieces.map Piece.toks).flatten⟩] := by
  obtain ⟨piece, rest, rfl⟩ := List.exists_cons_of_ne_nil some
  obtain ⟨here, later⟩ := List.forall_mem_cons.mp formed
  have shape : ∀ closes, head ++ ['('] ++ piece.text closes = head ++ '(' :: piece.text closes :=
    fun closes => List.append_assoc head ['('] _
  cases rest with
  | nil =>
    rw [layout, shape, logicalLoop_last (tokenizeLine_opening opens here 1 true)
      (List.cons_ne_nil _ _), startsBlank_append opens]
    simp
  | cons next rest =>
    rw [layout, shape, logicalLoop_open _ (tokenizeLine_opening opens here 1 false),
      startsBlank_append opens]
    · exact logicalLoop_inside (List.cons_ne_nil _ _) later (List.cons_ne_nil _ _)
    · simp

/-- A line of tokens with a parenthesis after the first one, cut into pieces between tokens,
is one record with the tokens, the starting blank and the number of the line it was. -/
theorem logicalLines_layout {line head : List Char} {first : Tok} {rest : List Tok}
    {pieces : List Piece} (single : '\n' ∉ line) (reads : Tokenizes line (first :: rest))
    (cut : Cut line first rest head pieces) (ended : Bool) :
    logicalLines (joinLines ended (layout (head ++ ['(']) pieces)) =
        .ok [⟨1, startsBlank line, first :: rest⟩] ∧
      logicalLines (joinLines ended [line]) = .ok [⟨1, startsBlank line, first :: rest⟩] := by
  have blank : startsBlank line = startsBlank head := by
    rw [cut.shape]
    exact startsBlank_append cut.opens _
  have whole : ∀ raw ∈ layout (head ++ ['(']) pieces, '\n' ∉ raw := by
    rw [cut.shape, List.mem_append, not_or] at single
    refine layout_single (List.not_mem_append single.1 (by decide)) ?_ cut.formed
    intro piece member inside
    exact single.2 (List.mem_flatten.mpr ⟨piece.chunk, List.mem_map_of_mem member, inside⟩)
  refine ⟨?_, ?_⟩
  · rw [logicalLines_joinLines ended whole (layout_filled _ _),
      logicalLoop_layout cut.opens cut.some cut.formed, blank, cut.tokens]
  · have filled : [line].getLast? ≠ some [] := by
      intro empty
      cases Option.some.inj empty
      cases reads.tokens
    rw [logicalLines_joinLines ended (List.forall_mem_singleton.mpr single) filled,
      logicalLoop_last (reads.lexes.tokenizeLine 1 0) (List.cons_ne_nil _ _)]
    rfl

/-- `ns A "a(" x` on three lines, the second one of nothing but a comment. -/
def spreadPieces : List Piece :=
  [⟨[], " A".toList, [.word "A"], some " the type".toList⟩,
    ⟨"\t".toList, [], [], some " nothing (here)".toList⟩,
    ⟨"   ".toList, " \"a(\" x".toList, [.quoted "a(", .word "x"], none⟩]

theorem tokenizes_of_all {text : List Char} {toks : List Tok}
    (plain : (unquoted false text).all (fun c => decide (c ≠ '(' ∧ c ≠ ')' ∧ c ≠ ';')) = true)
    (tokens : tokenizeLine (String.ofList text) 0 1 = .ok (toks, 0)) : Tokenizes text toks :=
  ⟨fun c member => of_decide_eq_true (List.all_eq_true.mp plain c member), tokens⟩

theorem spreadPieces_cut :
    Cut "ns A \"a(\" x".toList (.word "ns") [.word "A", .quoted "a(", .word "x"] "ns".toList
      spreadPieces where
  some := List.cons_ne_nil _ _
  shape := rfl
  opens := tokenizes_of_all rfl rfl
  formed := by
    refine List.forall_mem_cons.mpr
      ⟨⟨List.all_eq_true.mp rfl, tokenizes_of_all rfl rfl, by decide⟩, ?_⟩
    refine List.forall_mem_cons.mpr
      ⟨⟨List.all_eq_true.mp rfl, tokenizes_of_all rfl rfl, by decide⟩, ?_⟩
    exact List.forall_mem_singleton.mpr
      ⟨List.all_eq_true.mp rfl, tokenizes_of_all rfl rfl, by decide⟩
  tokens := rfl

theorem spreadPieces_one_record :
    logicalLines (joinLines true (layout "ns(".toList spreadPieces)) =
        .ok [⟨1, false, [.word "ns", .word "A", .quoted "a(", .word "x"]⟩] ∧
      logicalLines (joinLines true ["ns A \"a(\" x".toList]) =
        .ok [⟨1, false, [.word "ns", .word "A", .quoted "a(", .word "x"]⟩] :=
  logicalLines_layout (by decide) (tokenizes_of_all rfl rfl) spreadPieces_cut true

end Rdns.Zones
