import BindingIdl.Proofs.Token.Spelling

/-!
# What stands between tokens

Between tokens there are blanks and comments, and `IsGap behind cs` says that `cs` is made of them
when `behind` follows. What follows matters to a comment that runs to the end of its line, since it
runs there and no further. A comment between `/*` and `*/` ends at its first `*/`.

The scanner passes over every gap (`Scan.walk_gap`), and what it passes over is one. With the
spellings of tokens this describes the whole walk: `Scan.Cuts` says how a text falls into gaps,
tokens and at most one fault, and `Scan.cuts_walk` that the walk finds a text cut this way.
-/

namespace BindingIdl

/-- What may stand between `/*` and the `*/` that ends the comment: a text in which no `*/` begins,
not even with the star behind it. -/
def IsCommentBody (body : List Char) : Prop := ¬ ['*', '/'] <:+: body ++ ['*']

instance (body : List Char) : Decidable (IsCommentBody body) := inferInstanceAs (Decidable (¬ _))

/-- Blanks and comments, in front of `behind`. -/
inductive IsGap (behind : List Char) : List Char → Prop
  | nil : IsGap behind []
  | blank {c : Char} {cs : List Char} : c ∈ [' ', '\t', '\r', '\n', '\x0c'] → IsGap behind cs →
      IsGap behind (c :: cs)
  /-- A comment up to the next line end, or up to the end of the text. -/
  | line {body cs : List Char} : '\n' ∉ body → (∀ c ∈ (cs ++ behind).head?, c = '\n') →
      IsGap behind cs → IsGap behind ('/' :: '/' :: (body ++ cs))
  | block {body cs : List Char} : IsCommentBody body → IsGap behind cs →
      IsGap behind ('/' :: '*' :: (body ++ '*' :: '/' :: cs))

/-- What a fault says about the text where it is found, and about what stands behind that. -/
def LexicalFault.Explains (taken behind : List Char) : LexicalFault → Prop
  | unterminatedComment => taken = ['/', '*'] ∧ ¬ ['*', '/'] <:+: behind
  | unterminatedString =>
    taken = ['"'] ∧ ∀ body rest, behind = body ++ '"' :: rest → ¬ Lexeme.IsQuotedBody body
  | invalidInput => taken.head? = some '#'

namespace IsGap

variable {a b behind : List Char}

theorem append (hb : IsGap behind b) (ha : IsGap (b ++ behind) a) : IsGap behind (a ++ b) := by
  induction ha with
  | nil => exact hb
  | blank hc _ ih => exact .blank hc ih
  | line hbody hend _ ih =>
    rw [List.cons_append, List.cons_append, List.append_assoc]
    exact .line hbody (by rwa [List.append_assoc]) ih
  | block hbody _ ih =>
    rw [List.cons_append, List.cons_append, List.append_assoc]
    exact .block hbody ih

/-- Blanks are a gap in front of anything. -/
theorem of_isBlank (h : ∀ c ∈ a, Lexeme.isBlank c = true) : IsGap behind a := by
  induction a with
  | nil => exact .nil
  | cons c cs ih =>
    exact .blank (Lexeme.isBlank_iff_mem.mp (h c List.mem_cons_self))
      (ih fun d hd => h d (List.mem_cons_of_mem _ hd))

end IsGap

namespace Lexeme

variable {c : Char} {cs : List Char}

/-! ## Where a comment ends -/

theorem throughCommentEnd_cons (h : ¬ ['*', '/'] <+: c :: cs) :
    throughCommentEnd (c :: cs) = (throughCommentEnd cs).map (· + 1) := by
  refine throughCommentEnd.eq_2 c cs fun rest hc hcs => h ?_
  rw [hc, hcs]
  exact ⟨rest, rfl⟩

/-- A comment ends at its first end. -/
theorem throughCommentEnd_of_isCommentBody {body : List Char} (h : IsCommentBody body)
    (rest : List Char) :
    throughCommentEnd (body ++ '*' :: '/' :: rest) = some (body.length + 2) := by
  induction body with
  | nil => rfl
  | cons c body ih =>
    rw [IsCommentBody, List.cons_append, List.infix_cons_iff, not_or] at h
    have hopen : ¬ ['*', '/'] <+: c :: (body ++ '*' :: '/' :: rest) := by
      refine fun hlead => h.1 ?_
      have hbody : c :: (body ++ ['*']) <+: c :: (body ++ '*' :: '/' :: rest) :=
        ⟨'/' :: rest, by simp⟩
      exact List.prefix_of_prefix_length_le hlead hbody (by simp)
    rw [List.cons_append, throughCommentEnd_cons hopen, ih h.2]
    rfl

/-- What stands in front of the first end is the body of a comment. -/
theorem isCommentBody_of_throughCommentEnd {n : Nat} (h : throughCommentEnd cs = some n) :
    ∃ body rest, cs = body ++ '*' :: '/' :: rest ∧ n = body.length + 2 ∧ IsCommentBody body := by
  induction cs generalizing n with
  | nil => cases h
  | cons c cs ih =>
    by_cases hclose : ['*', '/'] <+: c :: cs
    · obtain ⟨rest, hrest⟩ := hclose
      rw [← hrest] at h
      cases h
      exact ⟨[], rest, hrest.symm, rfl, by decide⟩
    · rw [throughCommentEnd_cons hclose] at h
      obtain ⟨m, hm, rfl⟩ := Option.map_eq_some_iff.mp h
      obtain ⟨body, rest, rfl, rfl, hbody⟩ := ih hm
      refine ⟨c :: body, rest, rfl, rfl, ?_⟩
      rw [IsCommentBody, List.cons_append, List.infix_cons_iff, not_or]
      refine ⟨fun hlead => hclose (hlead.trans ⟨'/' :: rest, by simp⟩), hbody⟩

theorem not_infix_of_throughCommentEnd (h : throughCommentEnd cs = none) :
    ¬ ['*', '/'] <:+: cs := by
  induction cs with
  | nil => simp
  | cons c cs ih =>
    by_cases hclose : ['*', '/'] <+: c :: cs
    · obtain ⟨rest, hrest⟩ := hclose
      rw [← hrest] at h
      cases h
    · rw [throughCommentEnd_cons hclose, Option.map_eq_none_iff] at h
      rw [List.infix_cons_iff, not_or]
      exact ⟨hclose, ih h⟩

/-! ## What a rule makes of the text it takes -/

/-- What a slash begins and what is passed over is a gap. -/
theorem isGap_slash (h : (slash cs).role = .gap ∨ (slash cs).role = .token .blockComment) :
    IsGap (cs.drop (slash cs).more) ('/' :: cs.take (slash cs).more) := by
  unfold slash at h ⊢
  split at h
  · rename_i body
    dsimp only
    rw [Nat.add_comm, List.take_succ_cons, List.drop_succ_cons, take_run,
      ← List.append_nil (body.takeWhile _)]
    refine .line (fun hmem => ?_) (fun d hd => ?_) .nil
    · exact absurd (mem_takeWhile hmem) (by decide)
    · simpa using head_drop_run hd
  · split at h
    · rename_i n hn
      obtain ⟨body, rest, rfl, rfl, hbody⟩ := isCommentBody_of_throughCommentEnd hn
      have hsplit : body ++ '*' :: '/' :: rest = (body ++ ['*', '/']) ++ rest := by simp
      have hlength : body.length + 2 = (body ++ ['*', '/']).length := by simp
      dsimp only
      rw [Nat.add_comm 1, List.take_succ_cons, List.drop_succ_cons, hsplit, hlength,
        List.take_left, List.drop_left]
      exact .block hbody .nil
    · simp at h
  · simp at h

/-- A slash is a fault only where it opens a comment that does not end. -/
theorem explains_slash {cause : LexicalFault} (h : (slash cs).role = .fault cause) :
    cause.Explains ('/' :: cs.take (slash cs).more) (cs.drop (slash cs).more) := by
  unfold slash at h ⊢
  split at h
  · cases h
  · split at h
    · cases h
    · rename_i hnone
      cases h
      exact ⟨rfl, not_infix_of_throughCommentEnd hnone⟩
  · cases h

theorem explains_quote {cause : LexicalFault} (h : (quote cs).role = .fault cause) :
    cause.Explains ('"' :: cs.take (quote cs).more) (cs.drop (quote cs).more) := by
  unfold quote at h ⊢
  split at h
  · cases h
  · rename_i hnone
    cases h
    refine ⟨rfl, fun body rest hcs hbody => ?_⟩
    rw [List.drop_zero] at hcs
    rw [hcs, throughQuote_of_isQuotedBody hbody] at hnone
    cases hnone

theorem explains_hash {cause : LexicalFault} (h : (hash cs).role = .fault cause) :
    cause.Explains ('#' :: cs.take (hash cs).more) (cs.drop (hash cs).more) := by
  have hcause := role_hash cs
  rw [h] at hcause
  obtain rfl : cause = .invalidInput := by simpa using hcause
  exact rfl

/-- What no parser gets to see is a gap. -/
theorem isGap_taken (h : (ofHead c cs).role ∈ [.gap, .token .blockComment]) :
    IsGap (cs.drop (ofHead c cs).more) (c :: cs.take (ofHead c cs).more) := by
  have hread := readBy_ofHead c cs
  generalize ofHead c cs = lexeme at h hread ⊢
  have other {roles : List LexemeClass} (hrole : lexeme.role ∈ roles)
      (hgap : .gap ∉ roles) (hcomment : .token .blockComment ∉ roles) : False := by
    simp only [List.mem_cons, List.not_mem_nil, or_false] at h
    obtain h | h := h
    · exact hgap (h ▸ hrole)
    · exact hcomment (h ▸ hrole)
  cases hread with
  | blank hc =>
    rw [take_run]
    refine .of_isBlank fun d hd => ?_
    obtain rfl | hd := List.mem_cons.mp hd
    · exact hc
    · exact mem_takeWhile hd
  | slash hc => exact hc ▸ isGap_slash (by simpa using h)
  | word => exact (other (role_word c cs) (by decide) (by decide)).elim
  | number => exact (other (role_number cs) (by decide) (by decide)).elim
  | quote => exact (other (role_quote cs) (by decide) (by decide)).elim
  | brace => exact (other (role_brace cs) (by decide) (by decide)).elim
  | hash => exact (other (role_hash cs) (by decide) (by decide)).elim
  | colon => exact (other (role_colon cs) (by decide) (by decide)).elim
  | mark =>
    have hrole := List.mem_map_of_mem (f := LexemeClass.token) (single_mem c)
    exact (other hrole (by decide) (by decide)).elim

/-- A fault says what is wrong with the text. -/
theorem explains_taken {cause : LexicalFault} (h : (ofHead c cs).role = .fault cause) :
    cause.Explains (c :: cs.take (ofHead c cs).more) (cs.drop (ofHead c cs).more) := by
  have hread := readBy_ofHead c cs
  generalize ofHead c cs = lexeme at h hread ⊢
  cases hread with
  | slash hc => exact hc ▸ explains_slash h
  | quote hc => exact hc ▸ explains_quote h
  | hash hc => exact hc ▸ explains_hash h
  | blank => cases h
  | word => cases h
  | number => exact absurd (h ▸ role_number cs) (by simp)
  | brace => exact absurd (h ▸ role_brace cs) (by simp)
  | colon => exact absurd (h ▸ role_colon cs) (by simp)
  | mark => cases h

end Lexeme

namespace Scan

/-! ## Passing over a gap -/

/-- Blanks are passed over one by one as well as together. -/
theorem walk_run_isBlank (p : Position) (cs : List Char) :
    walk (Lexeme.run Lexeme.isBlank cs) p cs = walk 0 p cs := by
  cases cs with
  | nil => rfl
  | cons c cs =>
    cases hblank : Lexeme.isBlank c with
    | false => simp [Lexeme.run, hblank]
    | true => simp [Lexeme.run, walk, Lexeme.ofHead, hblank]

theorem walk_blank {c : Char} (hblank : Lexeme.isBlank c = true) (p : Position) (cs : List Char) :
    walk 0 p (c :: cs) = walk 0 (p.after c) cs := by
  have hhead : Lexeme.ofHead c cs = ⟨.gap, Lexeme.run Lexeme.isBlank cs⟩ := by
    simp [Lexeme.ofHead, hblank]
  rw [walk, hhead]
  exact walk_run_isBlank _ cs

/-- A lexeme that no parser gets to see is passed over. -/
theorem walk_dropped {c : Char} {cs rest : List Char} {role : LexemeClass}
    (h : Lexeme.ofHead c (cs ++ rest) = ⟨role, cs.length⟩)
    (hrole : role ∈ [.gap, .token .blockComment]) (p : Position) :
    walk 0 p (c :: (cs ++ rest)) = walk 0 (p.afterAll (c :: cs)) rest := by
  have hrest : walk cs.length (p.after c) (cs ++ rest) = walk 0 (p.afterAll (c :: cs)) rest := by
    rw [walk_covered, List.take_left, List.drop_left]
    rfl
  simp only [List.mem_cons, List.not_mem_nil, or_false] at hrole
  rw [walk, h]
  obtain rfl | rfl := hrole
  · exact hrest
  · exact hrest

/-- A lexeme that is a token is the next token of the scan. -/
theorem walk_token {kind : TokenKind} {c : Char} {cs rest : List Char}
    (hseen : kind.isTrivia = false)
    (h : Lexeme.ofHead c (cs ++ rest) = ⟨.token kind, cs.length⟩) (p : Position) :
    walk 0 p (c :: cs ++ rest) = (walk 0 (p.afterAll (c :: cs)) rest).cons
      ⟨kind, String.ofList (c :: cs), p.spanOf (c :: cs)⟩ := by
  rw [List.cons_append, walk, h]
  simp only [hseen, Bool.false_eq_true, if_false, List.take_left]
  rw [walk_covered, List.take_left, List.drop_left]
  rfl

/-- A token is read off where a line ends behind it. -/
theorem walk_spelled {kind : TokenKind} {spelling rest : List Char}
    (h : Lexeme.Spells kind spelling) (hrest : rest.head? = some '\n') (p : Position) :
    walk 0 p (spelling ++ rest) = (walk 0 (p.afterAll spelling) rest).cons
      ⟨kind, String.ofList spelling, p.spanOf spelling⟩ := by
  obtain ⟨rest, rfl⟩ := List.head?_eq_some_iff.mp hrest
  obtain ⟨c, cs, rfl⟩ := List.exists_cons_of_ne_nil h.ne_nil
  have hseen : kind.isTrivia = false :=
    decide_eq_false fun hkind => h.kind_notMem (hkind ▸ List.mem_cons_self)
  exact walk_token hseen (Lexeme.ofHead_of_spells h rest) p

/-- A gap is passed over, by induction on its parts. -/
theorem walk_gap {gap rest : List Char} (h : IsGap rest gap) (p : Position) :
    walk 0 p (gap ++ rest) = walk 0 (p.afterAll gap) rest := by
  induction h generalizing p with
  | nil => rfl
  | blank hc _ ih =>
    rw [List.cons_append, walk_blank (Lexeme.isBlank_iff_mem.mpr hc), ih]
    rfl
  | @line body cs hbody hend _ ih =>
    have hslash : Lexeme.ofHead '/' (('/' :: body) ++ (cs ++ rest)) =
        ⟨.gap, ('/' :: body).length⟩ := by
      -- a line comment goes on to the end of its line
      have hrun : Lexeme.run (· ≠ '\n') (body ++ (cs ++ rest)) = body.length :=
        Lexeme.run_append_stop (fun c hc => decide_eq_true fun h => hbody (h ▸ hc))
          fun c hc => decide_eq_false (not_not.mpr (hend c hc))
      rw [List.cons_append, Lexeme.ofHead_slash, Lexeme.slash, hrun, List.length_cons, Nat.add_comm]
    have hpass := walk_dropped hslash (by simp) p
    simp only [List.cons_append, List.append_assoc] at hpass ⊢
    rw [hpass, ih]
    simp
  | @block body cs hbody _ ih =>
    have hslash : Lexeme.ofHead '/' (('*' :: (body ++ ['*', '/'])) ++ (cs ++ rest)) =
        ⟨.token .blockComment, ('*' :: (body ++ ['*', '/'])).length⟩ := by
      -- and a block comment to the first end that it meets
      have hclose := Lexeme.throughCommentEnd_of_isCommentBody hbody (cs ++ rest)
      have hsplit : '*' :: (body ++ ['*', '/']) ++ (cs ++ rest) =
          '*' :: (body ++ '*' :: '/' :: (cs ++ rest)) := by simp
      rw [hsplit, Lexeme.ofHead_slash, Lexeme.slash, hclose]
      simp [Nat.add_comm]
    have hpass := walk_dropped hslash (by simp) p
    simp only [List.cons_append, List.append_assoc, List.nil_append] at hpass ⊢
    rw [hpass, ih]
    simp

/-! ## A text cut into gaps and tokens -/

/-- How a text from position `p` on falls into gaps, tokens and the fault that ends them. -/
inductive Cuts : Position → List Char → Scan → Prop
  | done {p : Position} : Cuts p [] ⟨[], none⟩
  | gap {p : Position} {gap rest : List Char} {scan : Scan} : IsGap rest gap →
      Cuts (p.afterAll gap) rest scan → Cuts p (gap ++ rest) scan
  | token {p : Position} {kind : TokenKind} {spelling rest : List Char} {scan : Scan} :
      Lexeme.Spells kind spelling → Cuts (p.afterAll spelling) rest scan →
      Cuts p (spelling ++ rest) (scan.cons ⟨kind, String.ofList spelling, p.spanOf spelling⟩)
  | fault {p : Position} {cause : LexicalFault} {taken behind : List Char} :
      cause.Explains taken behind →
      Cuts p (taken ++ behind) ⟨[], some ⟨cause, String.ofList taken, p.spanOf taken⟩⟩

/-- The walk finds a text cut in this way. -/
theorem cuts_walk (p : Position) (cs : List Char) : Cuts p cs (walk 0 p cs) := by
  -- each lexeme takes its first character, so what is left is shorter
  induction hlength : cs.length using Nat.strong_induction_on generalizing p cs with
  | _ length ih =>
    cases cs with
    | nil => exact .done
    | cons c cs =>
      have hsplit : c :: cs = (c :: cs.take (Lexeme.ofHead c cs).more) ++
          cs.drop (Lexeme.ofHead c cs).more := by
        rw [List.cons_append, List.take_append_drop]
      have hrest : Cuts (p.afterAll (c :: cs.take (Lexeme.ofHead c cs).more))
          (cs.drop (Lexeme.ofHead c cs).more)
          (walk (Lexeme.ofHead c cs).more (p.after c) cs) := by
        rw [walk_covered]
        refine ih _ ?_ _ _ rfl
        rw [← hlength, List.length_drop, List.length_cons]
        omega
      rw [walk]
      split
      · rename_i hrole
        conv => arg 2; rw [hsplit]
        exact .gap (Lexeme.isGap_taken (by simp [hrole])) hrest
      · rename_i kind hrole
        split
        · rename_i htrivia
          obtain rfl : kind = .blockComment := of_decide_eq_true htrivia
          conv => arg 2; rw [hsplit]
          exact .gap (Lexeme.isGap_taken (by simp [hrole])) hrest
        · rename_i hseen
          conv => arg 2; rw [hsplit]
          exact .token (Lexeme.spells_taken hrole (eq_false_of_ne_true hseen)) hrest
      · rename_i cause hrole
        conv => arg 2; rw [hsplit]
        exact .fault (Lexeme.explains_taken hrole)

theorem Cuts.spells {p : Position} {cs : List Char} {scan : Scan} (h : Cuts p cs scan) :
    ∀ t ∈ scan.tokens, Lexeme.Spells t.kind t.text.toList := by
  induction h with
  | done => simp
  | gap _ _ ih => exact ih
  | token hspells _ ih =>
    rintro t (_ | ⟨_, ht⟩)
    · simpa using hspells
    · exact ih t ht
  | fault => simp

/-- The scan of a text cuts it into tokens and gaps, up to a fault. -/
theorem cuts_ofText (text : String) : Cuts .origin text.toList (ofText text) :=
  cuts_walk .origin text.toList

end Scan

theorem Scan.kind_ne_endOfFile {text : String} {t : Token} (h : t ∈ (ofText text).tokens) :
    t.kind ≠ .endOfFile := fun hkind =>
  ((cuts_ofText text).spells t h).kind_notMem (by simp [hkind])

/-- A text is cut into tokens when its scan meets no fault. -/
theorem Token.ofText_eq_ok_iff {text : String} {ts : List Token} :
    ofText text = .ok ts ↔ ∃ us, Scan.ofText text = ⟨us, none⟩ ∧ ts = us ++ [endOf text] := by
  unfold ofText
  cases hscan : Scan.ofText text with
  | mk us fault =>
    cases fault with
    | none => simp [eq_comm]
    | some e => simp

/-- The end of a text is the only token of its kind. -/
theorem Token.takeWhile_of_ofText {text : String} {ts : List Token}
    (h : ofText text = .ok (ts ++ [endOf text])) :
    (ts ++ [endOf text]).takeWhile (·.kind ≠ .endOfFile) = ts := by
  obtain ⟨us, hscan, hus⟩ := ofText_eq_ok_iff.mp h
  obtain rfl : ts = us := List.append_cancel_right hus
  have hseen : ∀ t ∈ ts, t.kind ≠ .endOfFile := fun t ht =>
    Scan.kind_ne_endOfFile (by rw [hscan]; exact ht)
  exact Lexeme.takeWhile_append_stop (fun t ht => decide_eq_true (hseen t ht)) (by rintro _ ⟨⟩; rfl)

end BindingIdl
