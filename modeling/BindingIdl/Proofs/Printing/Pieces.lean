import BindingIdl.Proofs.Token.Gaps
import BindingIdl.Proofs.Token.Words

/-!
# Scanning canonical text

Canonical text is made of lines, and a line of pieces: single blanks, and tokens that are spelled
out. Where each piece stands clear of what follows it (`Piece.Stands`), the scanner finds the
pieces again, each at the place where it was put: see `Token.ofText_lines`.

What has to be clear depends on the rule that reads the piece. A word needs a character behind it
that cannot be in a word; a closing brace must not run into an end marker; the other tokens of
canonical text end where they end.
-/

namespace BindingIdl

/-- A stretch of a line of canonical text. -/
inductive Piece where
  | space
  | token (kind : TokenKind) (spelling : List Char)

namespace Piece

/-- An identifier. -/
def name (s : String) : Piece := .token .identifier s.toList

/-- A keyword, or any other token that has a spelling of its own. -/
def fixed (kind : TokenKind) : Piece := .token kind kind.describe.toList

/-- An include line for a path. -/
def header (path : String) : Piece :=
  .token .includeLine ("#include <".toList ++ path.toList ++ ['>'])

/-- The characters of a piece. -/
def chars : Piece → List Char
  | space => [' ']
  | token _ spelling => spelling

/-- What the pieces of a line spell. -/
def spelled (line : List Piece) : List Char := line.flatMap chars

/-- What lines spell, each with its end. -/
def text (lines : List (List Piece)) : List Char := lines.flatMap fun line => spelled line ++ ['\n']

/-- The tokens of a line that starts at `p`. -/
def tokens (p : Position) : List Piece → List Token
  | [] => []
  | space :: line => tokens (p.after ' ') line
  | token kind spelling :: line =>
    ⟨kind, String.ofList spelling, p.spanOf spelling⟩ :: tokens (p.afterAll spelling) line

/-- The place behind a line that starts at `p`. -/
def below (p : Position) (line : List Piece) : Position := (p.afterAll (spelled line)).after '\n'

/-- The tokens of lines of which the first starts at `p`. -/
def allTokens (p : Position) : List (List Piece) → List Token
  | [] => []
  | line :: lines => tokens p line ++ allTokens (below p line) lines

/-- The place behind lines of which the first starts at `p`. -/
def allBelow (p : Position) (lines : List (List Piece)) : Position := lines.foldl below p

variable {p : Position} {line : List Piece}

@[simp] theorem spelled_nil : spelled [] = [] := rfl

@[simp] theorem spelled_cons (piece : Piece) (line : List Piece) :
    spelled (piece :: line) = piece.chars ++ spelled line := rfl

@[simp] theorem spelled_append (line more : List Piece) :
    spelled (line ++ more) = spelled line ++ spelled more := List.flatMap_append

@[simp] theorem text_nil : text [] = [] := rfl

@[simp] theorem text_cons (line : List Piece) (lines : List (List Piece)) :
    text (line :: lines) = spelled line ++ '\n' :: text lines := by
  simp [text]

@[simp] theorem text_append (lines more : List (List Piece)) :
    text (lines ++ more) = text lines ++ text more := List.flatMap_append

/-- The second part of a line starts where the first one ends. -/
theorem tokens_append (line more : List Piece) :
    tokens p (line ++ more) = tokens p line ++ tokens (p.afterAll (spelled line)) more := by
  induction line generalizing p with
  | nil => rfl
  | cons piece line ih => cases piece <;> simp [tokens, ih, chars]

theorem tokens_space (line : List Piece) :
    tokens p (space :: line) = tokens (p.after ' ') line := rfl

theorem tokens_fixed (kind : TokenKind) (line : List Piece) :
    tokens p (fixed kind :: line) =
      ⟨kind, kind.describe, p.spanOf kind.describe.toList⟩ ::
        tokens (p.afterAll kind.describe.toList) line := by
  rw [fixed, tokens, String.ofList_toList]

theorem tokens_name (s : String) (line : List Piece) :
    tokens p (name s :: line) =
      ⟨.identifier, s, p.spanOf s.toList⟩ :: tokens (p.afterAll s.toList) line := by
  rw [name, tokens, String.ofList_toList]

@[simp] theorem allTokens_nil : allTokens p [] = [] := rfl

@[simp] theorem allTokens_cons (line : List Piece) (lines : List (List Piece)) :
    allTokens p (line :: lines) = tokens p line ++ allTokens (below p line) lines := rfl

theorem allTokens_append (lines more : List (List Piece)) :
    allTokens p (lines ++ more) = allTokens p lines ++ allTokens (allBelow p lines) more := by
  induction lines generalizing p with
  | nil => rfl
  | cons line lines ih => simp [ih, allBelow]

/-! ## Standing clear -/

/-- In front of `rest`, the scanner reads the piece as a whole, and nothing more; and it is one that
the parser gets to see. -/
def Stands (rest : List Char) : Piece → Prop
  | space => True
  | token kind spelling => kind ∉ [.blockComment, .endOfFile] ∧ '\n' ∉ spelling ∧
      ∃ c cs, spelling = c :: cs ∧ Lexeme.ofHead c (cs ++ rest) = ⟨.token kind, cs.length⟩

/-- Each piece stands clear of the next, and the last one of `rest`. -/
def AllStand (rest : List Char) : List Piece → Prop
  | [] => True
  | piece :: line => piece.Stands (spelled line ++ rest) ∧ AllStand rest line

/-- The second part of a line stands in front of what follows, the first in front of the second. -/
theorem allStand_append_iff {rest : List Char} {line more : List Piece} :
    AllStand rest (line ++ more) ↔ AllStand (spelled more ++ rest) line ∧ AllStand rest more := by
  induction line with
  | nil => simp [AllStand]
  | cons piece line ih => simp [AllStand, ih, and_assoc]

/-- A line that stands clear wherever it is put. -/
def Clear (line : List Piece) : Prop := ∀ rest, AllStand ('\n' :: rest) line

/-- No word goes on here. -/
def EndsWord (rest : List Char) : Prop := ∀ c ∈ rest.head?, Lexeme.isWordRest c = false

/-- A character that cannot be in a word ends it. -/
theorem endsWord_cons {c : Char} (h : Lexeme.isWordRest c = false) (rest : List Char) :
    EndsWord (c :: rest) := by
  rintro _ ⟨⟩
  exact h

theorem newline_notMem_word {c : Char} {cs : List Char} (hc : Lexeme.isWordStart c = true)
    (hcs : ∀ d ∈ cs, Lexeme.isWordRest d = true) : '\n' ∉ c :: cs := by
  intro hmem
  obtain rfl | hmem := List.mem_cons.mp hmem
  · exact absurd hc (by decide)
  · exact absurd (hcs _ hmem) (by decide)

/-- An identifier is scanned as one where no word goes on. -/
theorem stands_name {s : String} (hs : isIdentifier s = true) {rest : List Char}
    (hrest : EndsWord rest) : (name s).Stands rest := by
  obtain ⟨c, cs, htext, hc, hcs, hkey⟩ := isIdentifier_iff.mp hs
  refine ⟨by decide, htext ▸ newline_notMem_word hc hcs, c, cs, htext, ?_⟩
  rw [Lexeme.ofHead_word hc, Lexeme.word, Lexeme.takeWhile_append_stop hcs hrest, ← htext,
    String.ofList_toList, hkey]
  rfl

theorem stands_keyword {kind : TokenKind} (hkey : TokenKind.keyword? kind.describe = some kind)
    {rest : List Char} (hrest : EndsWord rest) : (fixed kind).Stands rest := by
  have hword : ∃ c cs, kind.describe.toList = c :: cs ∧ Lexeme.isWordStart c = true ∧
      cs.all Lexeme.isWordRest = true ∧ kind ∉ [.blockComment, .endOfFile] := by
    cases kind <;> first
      | exact absurd hkey (by decide)
      | exact ⟨_, _, rfl, by decide, by decide, by decide⟩
  obtain ⟨c, cs, htext, hc, hall, hseen⟩ := hword
  have hcs := List.all_eq_true.mp hall
  refine ⟨hseen, htext ▸ newline_notMem_word hc hcs, c, cs, htext, ?_⟩
  rw [Lexeme.ofHead_word hc, Lexeme.word, Lexeme.takeWhile_append_stop hcs hrest, ← htext,
    String.ofList_toList, hkey]
  rfl

/-- The kinds that end where they end. -/
def isMark : TokenKind → Bool
  | .openParen | .closeParen | .openBrace | .less | .greater | .comma | .semicolon
  | .doubleColon | .ampersand | .star | .namespaceEnd => true
  | _ => false

/-- A mark of one or two characters is scanned wherever it stands. -/
theorem stands_mark {kind : TokenKind} (hkind : isMark kind = true) (rest : List Char) :
    (fixed kind).Stands rest := by
  cases kind <;> first
    | exact absurd hkind (by decide)
    | exact ⟨by decide, by decide, _, _, rfl, rfl⟩

/-- In front of a `;` a closing brace is no beginning of an end marker. -/
theorem stands_closeBrace (rest : List Char) : (fixed .closeBrace).Stands (';' :: rest) :=
  ⟨by decide, by decide, _, _, rfl, rfl⟩

/-- The word as characters, which are what `simp` can count. -/
theorem includeWord_eq : Lexeme.includeWord = ['i', 'n', 'c', 'l', 'u', 'd', 'e'] := rfl

theorem stands_header {path : String} (hpath : IsHeaderPath path) (rest : List Char) :
    (header path).Stands rest := by
  have hline : '\n' ∉ "#include <".toList ++ path.toList ++ ['>'] := by
    simp only [List.mem_append, not_or]
    exact ⟨⟨by decide, hpath.line⟩, by decide⟩
  refine ⟨by decide, hline, '#', "include <".toList ++ path.toList ++ ['>'], rfl, ?_⟩
  have hinline : ∀ d ∈ [' '], Lexeme.isInlineBlank d = true := by simp [Lexeme.isInlineBlank]
  have hhash := @Lexeme.hash_spelled [] [' '] path.toList (by simp) hinline hpath.closed
    hpath.line rest
  have hsplit : "include <".toList ++ path.toList ++ ['>'] ++ rest =
      [] ++ (Lexeme.includeWord ++ ([' '] ++ '<' :: (path.toList ++ '>' :: rest))) := by
    simp [includeWord_eq]
  rw [hsplit, Lexeme.ofHead_hash, hhash]
  simp [includeWord_eq]
  omega

/-- The path of an include line is read back from it. -/
theorem pathOf_header {path : String} (hpath : IsHeaderPath path) :
    IncludeOverride.pathOf (String.ofList ("#include <".toList ++ path.toList ++ ['>'])) =
      path := by
  have hbehind : (("#include <".toList ++ path.toList ++ ['>']).dropWhile (· ≠ '<')).drop 1 =
      path.toList ++ ['>'] := by
    simp
  rw [IncludeOverride.pathOf, String.toList_ofList, hbehind]
  simp [hpath.trimmed]

/-! ## Scanning -/

theorem walk_token {kind : TokenKind} {spelling rest : List Char}
    (h : (token kind spelling).Stands rest) (p : Position) :
    Scan.walk 0 p (spelling ++ rest) =
      (Scan.walk 0 (p.afterAll spelling) rest).cons
        ⟨kind, String.ofList spelling, p.spanOf spelling⟩ := by
  obtain ⟨hseen, -, c, cs, rfl, hread⟩ := h
  exact Scan.walk_token (decide_eq_false fun h => hseen (h ▸ List.mem_cons_self)) hread p

theorem walk_line {rest : List Char} (h : AllStand rest line) (p : Position) :
    Scan.walk 0 p (spelled line ++ rest) =
      (tokens p line).foldr Scan.cons (Scan.walk 0 (p.afterAll (spelled line)) rest) := by
  induction line generalizing p with
  | nil => rfl
  | cons piece line ih =>
    cases piece with
    | space => exact (Scan.walk_blank rfl p _).trans (ih h.2 _)
    | token kind spelling =>
      rw [spelled_cons, chars, List.append_assoc, walk_token h.1, ih h.2, Position.afterAll_append]
      rfl

/-- By induction on the lines: each one ends what stands in it. -/
theorem walk_lines {lines : List (List Piece)} (h : ∀ line ∈ lines, Clear line) (p : Position) :
    Scan.walk 0 p (text lines) = (allTokens p lines).foldr Scan.cons ⟨[], none⟩ := by
  induction lines generalizing p with
  | nil => rfl
  | cons line lines ih =>
    rw [text_cons, walk_line (h line List.mem_cons_self _), Scan.walk_blank rfl,
      ih (fun more hmore => h more (List.mem_cons_of_mem _ hmore)), allTokens_cons,
      List.foldr_append]
    rfl

theorem foldr_cons (ts : List Token) : ts.foldr Scan.cons ⟨[], none⟩ = ⟨ts, none⟩ := by
  induction ts with
  | nil => rfl
  | cons t ts ih => rw [List.foldr_cons, ih, Scan.cons]

/-- The scanner reads the lines piece by piece. -/
theorem ofText_lines {s : String} {lines : List (List Piece)} (htext : s.toList = text lines)
    (h : ∀ line ∈ lines, Clear line) :
    Token.ofText s = .ok (allTokens .origin lines ++ [Token.endOf s]) := by
  have hscan : Scan.ofText s = ⟨allTokens .origin lines, none⟩ := by
    rw [Scan.ofText, htext, walk_lines h, foldr_cons]
  rw [Token.ofText, hscan]

/-- A line is read like that also where the text stops short of its end. -/
theorem ofText_line {s : String} (htext : s.toList = spelled line) (h : AllStand [] line) :
    Token.ofText s = .ok (tokens .origin line ++ [Token.endOf s]) := by
  have hwalk := walk_line h .origin
  rw [List.append_nil, ← htext] at hwalk
  have hscan : Scan.ofText s = ⟨tokens .origin line, none⟩ := hwalk.trans (foldr_cons _)
  rw [Token.ofText, hscan]

/-! ## Places -/

theorem line_afterAll {cs : List Char} (h : '\n' ∉ cs) (p : Position) :
    (p.afterAll cs).line = p.line := by
  induction cs generalizing p with
  | nil => rfl
  | cons c cs ih =>
    rw [List.mem_cons, not_or] at h
    rw [Position.afterAll_cons, ih h.2, Position.after, if_neg (Ne.symm h.1)]

/-- Every token of a line is on that line. -/
theorem line_of_mem_tokens {rest : List Char} (h : AllStand rest line) {t : Token}
    (ht : t ∈ tokens p line) : t.span.line = p.line := by
  induction line generalizing p with
  | nil => cases ht
  | cons piece line ih =>
    cases piece with
    | space => exact ih (p := p.after ' ') h.2 ht
    | token kind spelling =>
      obtain ⟨⟨-, hline, -⟩, hrest⟩ := h
      obtain rfl | ht := List.mem_cons.mp ht
      · rfl
      · exact (ih hrest ht).trans (line_afterAll hline p)

/-- No token of canonical text goes over the end of a line. -/
theorem newline_notMem_spelled {rest : List Char} (h : AllStand rest line) :
    '\n' ∉ spelled line := by
  induction line with
  | nil => exact List.not_mem_nil
  | cons piece line ih =>
    rw [spelled_cons, List.mem_append, not_or]
    refine ⟨?_, ih h.2⟩
    cases piece with
    | space => decide
    | token kind spelling => exact h.1.2.1

theorem line_below (h : Clear line) (p : Position) : (below p line).line = p.line + 1 := by
  rw [below, Position.after, if_pos rfl, line_afterAll (newline_notMem_spelled (h []))]

end Piece

end BindingIdl
