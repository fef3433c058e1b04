import BindingIdl.Proofs.Printing.Pieces
import BindingIdl.Proofs.Token.Formatting
import BindingIdl.Proofs.Token.Joining

/-!
# Parts of a text set into another

Some neighbouring tokens are cut out of a text, from the first character of the first to the last
character of the last, with whatever stands between them. Set into another text, the part is read as
the same tokens again, as long as each token of it ends by itself or where no word goes on
(`TokenKind.isCompact`). Those are the kinds that types are made of.

Between the tokens nothing changes, since a gap and the end of a word depend on no more than the
next character, and that one is in the part as well. Only behind the last token there is another
text, which must not run into it.
-/

namespace BindingIdl

/-- The kinds that a type is made of. Tokens of these kinds can be told apart by what they are
spelled with, and by where a word ends. -/
def TokenKind.isCompact : TokenKind → Bool
  | identifier | constKeyword | doubleColon | less | greater | ampersand | star => true
  | _ => false

/-- The words among them. -/
def TokenKind.isWord : TokenKind → Bool
  | identifier | constKeyword => true
  | _ => false

/-- A gap depends on the next character only, where a comment could begin. -/
theorem IsGap.congr {behind behind' gap : List Char} (h : IsGap behind gap)
    (hhead : behind.head? = behind'.head?) : IsGap behind' gap := by
  induction h with
  | nil => exact .nil
  | blank hc _ ih => exact .blank hc ih
  | line hbody hend _ ih =>
    refine .line hbody ?_ ih
    rwa [List.head?_append, ← hhead, ← List.head?_append]
  | block hbody _ ih => exact .block hbody ih

namespace Piece

theorem EndsWord.congr {rest rest' : List Char} (h : EndsWord rest)
    (hhead : rest.head? = rest'.head?) : EndsWord rest' := by
  rwa [EndsWord, ← hhead]

/-- A token of a type is read as a whole in front of anything that does not go on with its word. -/
theorem stands_of_spells {kind : TokenKind} {spelling rest : List Char}
    (h : Lexeme.Spells kind spelling) (hkind : kind.isCompact = true)
    (hrest : kind.isWord = true → EndsWord rest) : (token kind spelling).Stands rest := by
  cases h with
  | @word _ c cs hword hc hcs =>
    have hends : EndsWord rest := by
      refine hrest ?_
      have hmem := Lexeme.keyword?_getD_mem (String.ofList (c :: cs))
      rw [hword] at hmem
      simp only [List.mem_cons, List.not_mem_nil, or_false] at hmem
      obtain rfl | rfl | rfl | rfl | rfl := hmem <;> first | rfl | exact absurd hkind (by decide)
    refine ⟨?_, newline_notMem_word hc hcs, c, cs, rfl, ?_⟩
    · rintro hmem
      simp only [List.mem_cons, List.not_mem_nil, or_false] at hmem
      obtain rfl | rfl := hmem <;> exact absurd hkind (by decide)
    · rw [Lexeme.ofHead_word hc, Lexeme.word, Lexeme.takeWhile_append_stop hcs hends, hword]
  | doubleColon => exact ⟨by decide, by decide, _, _, rfl, rfl⟩
  | @mark _ c hmark =>
    unfold Lexeme.single at hmark
    split at hmark <;> subst hmark <;> first
      | exact absurd hkind (by decide)
      | exact ⟨by decide, by decide, _, _, rfl, rfl⟩
  | _ => cases hkind

end Piece

namespace Lexeme

/-- A word begins with a character that can begin one. -/
theorem Spells.isWordStart {kind : TokenKind} {c : Char} {cs : List Char}
    (h : Spells kind (c :: cs)) (hkind : kind.isWord = true) : isWordStart c = true := by
  cases h with
  | word _ hc => exact hc
  | mark hmark =>
    unfold single at hmark
    split at hmark <;> subst hmark <;> cases hkind
  | _ => cases hkind

/-- A word goes as far as it can. -/
theorem endsWord_of_isWord {kind : TokenKind} {c : Char} {cs : List Char}
    (h : (ofHead c cs).role = .token kind) (hkind : kind.isWord = true) :
    Piece.EndsWord (cs.drop (ofHead c cs).more) := by
  have hseen : kind.isTrivia = false := by
    cases kind <;> first | rfl | cases hkind
  rw [ofHead_word ((spells_taken h hseen).isWordStart hkind)]
  exact fun d hd => head_drop_run hd

end Lexeme

/-- The token is read behind a gap, from place `p` on, with `rest` behind it. -/
structure Token.StandsIn (t : Token) (p : Position) (gap spelling rest : List Char) : Prop where
  isGap : IsGap (spelling ++ rest) gap
  spells : Lexeme.Spells t.kind spelling
  span : t.span = (p.afterAll gap).spanOf spelling
  text : t.text = String.ofList spelling
  ends : t.kind.isWord = true → Piece.EndsWord rest

namespace Scan

variable {p : Position} {cs : List Char} {t : Token} {ts us : List Token}
  {fault : Option LexicalError}

/-- The first token of a text and what stands around it. -/
theorem walk_first (h : walk 0 p cs = ⟨t :: ts, fault⟩) : ∃ gap spelling rest,
    cs = gap ++ (spelling ++ rest) ∧ t.StandsIn p gap spelling rest ∧
      walk 0 ((p.afterAll gap).afterAll spelling) rest = ⟨ts, fault⟩ := by
  -- each lexeme takes its first character, so what is left is shorter
  induction hlength : cs.length using Nat.strong_induction_on generalizing p cs with
  | _ length ih =>
    cases cs with
    | nil => cases h
    | cons c cs =>
      have dropped (hgap : (Lexeme.ofHead c cs).role ∈ [.gap, .token .blockComment])
          (h : walk (Lexeme.ofHead c cs).more (p.after c) cs = ⟨t :: ts, fault⟩) :
          ∃ gap spelling rest, c :: cs = gap ++ (spelling ++ rest) ∧
            t.StandsIn p gap spelling rest ∧
            walk 0 ((p.afterAll gap).afterAll spelling) rest = ⟨ts, fault⟩ := by
        rw [walk_covered] at h
        have hshorter : (cs.drop (Lexeme.ofHead c cs).more).length < length := by
          rw [← hlength, List.length_drop, List.length_cons]
          omega
        obtain ⟨gap, spelling, rest, hsplit, hfirst, hrest⟩ := ih _ hshorter h rfl
        have htaken := Lexeme.isGap_taken hgap
        rw [hsplit] at htaken
        have hafter : p.afterAll (c :: cs.take (Lexeme.ofHead c cs).more ++ gap) =
            ((p.after c).afterAll (cs.take (Lexeme.ofHead c cs).more)).afterAll gap :=
          Position.afterAll_append p _ gap
        refine ⟨c :: cs.take (Lexeme.ofHead c cs).more ++ gap, spelling, rest, ?_, ?_, ?_⟩
        · rw [List.append_assoc, ← hsplit, List.cons_append, List.take_append_drop]
        · exact ⟨hfirst.isGap.append htaken, hfirst.spells, hafter ▸ hfirst.span, hfirst.text,
            hfirst.ends⟩
        · rw [hafter, hrest]
      rw [walk] at h
      split at h
      · rename_i hrole
        exact dropped (by simp [hrole]) h
      · rename_i kind hrole
        split at h
        · rename_i htrivia
          obtain rfl : kind = .blockComment := of_decide_eq_true htrivia
          exact dropped (by simp [hrole]) h
        · rename_i hseen
          rw [walk_covered] at h
          obtain ⟨htokens, hfault⟩ := Scan.mk.inj h
          obtain ⟨rfl, hts⟩ := List.cons.inj htokens
          refine ⟨[], c :: cs.take (Lexeme.ofHead c cs).more, cs.drop (Lexeme.ofHead c cs).more,
            by simp, ⟨.nil, Lexeme.spells_taken hrole (eq_false_of_ne_true hseen), rfl, rfl,
              Lexeme.endsWord_of_isWord hrole⟩, ?_⟩
          rw [← hts, ← hfault]
          rfl
      · cases h

/-- What is ahead of a reader who has met the first tokens of a text. -/
theorem walk_behind {before : List Token} (h : walk 0 p cs = ⟨before ++ us, fault⟩) :
    ∃ front rest, cs = front ++ rest ∧ walk 0 (p.afterAll front) rest = ⟨us, fault⟩ := by
  induction before generalizing p cs with
  | nil => exact ⟨[], cs, rfl, h⟩
  | cons t before ih =>
    obtain ⟨gap, spelling, rest, rfl, -, hrest⟩ := walk_first h
    obtain ⟨front, behind, rfl, hbehind⟩ := ih hrest
    refine ⟨gap ++ (spelling ++ front), behind, by simp, ?_⟩
    rw [Position.afterAll_append, Position.afterAll_append, hbehind]

/-- Set into a text where no word goes on behind it, `part` is read as the tokens. -/
def Excerpt (part : List Char) (us : List Token) : Prop :=
  ∀ (q : Position) (rest : List Char), Piece.EndsWord rest → ∃ us',
    walk 0 q (part ++ rest) = (walk 0 (q.afterAll part) rest).following us' ∧
      us'.map Token.word = us.map Token.word

theorem Excerpt.nil : Excerpt [] [] := fun _ _ _ => ⟨[], rfl, rfl⟩

/-- One more token in front. What stands between it and the others goes along; where there are no
others, nothing does. -/
theorem Excerpt.cons {before gap spelling part behind : List Char} (hpart : Excerpt part us)
    (h : t.StandsIn p before spelling (gap ++ (part ++ behind))) (hkind : t.kind.isCompact = true)
    (hgap : IsGap (part ++ behind) gap) (hnext : part = [] → gap = []) :
    Excerpt (spelling ++ (gap ++ part)) (t :: us) := by
  intro q rest hrest
  -- whatever decides where the token and the gap end is in the part, if there is more of it
  have hhead {xs : List Char} (hxs : xs ≠ []) : (xs ++ behind).head? = (xs ++ rest).head? := by
    rw [List.head?_append_of_ne_nil _ hxs, List.head?_append_of_ne_nil _ hxs]
  have hends : t.kind.isWord = true → Piece.EndsWord (gap ++ (part ++ rest)) := by
    intro hword
    by_cases hempty : part = []
    · rwa [hnext hempty, hempty]
    · have hends := h.ends hword
      rw [← List.append_assoc] at hends ⊢
      exact hends.congr (hhead fun hnil => hempty (List.append_eq_nil_iff.mp hnil).2)
  have hgap' : IsGap (part ++ rest) gap := by
    by_cases hempty : part = []
    · rw [hnext hempty]
      exact .nil
    · exact hgap.congr (hhead hempty)
  obtain ⟨us', hus, hwords⟩ := hpart ((q.afterAll spelling).afterAll gap) rest hrest
  refine ⟨⟨t.kind, t.text, q.spanOf spelling⟩ :: us', ?_, by simp [hwords, Token.word]⟩
  rw [List.append_assoc, List.append_assoc, Piece.walk_token (Piece.stands_of_spells h.spells hkind
    hends), walk_gap hgap', hus, h.text, Position.afterAll_append, Position.afterAll_append]
  rfl

/-- Neighbouring tokens and the part of the text from the first to the last of them. -/
theorem exists_excerpt {after : List Token} (hne : us ≠ [])
    (hkinds : ∀ u ∈ us, u.kind.isCompact = true) (h : walk 0 p cs = ⟨us ++ after, fault⟩) :
    ∃ gap part behind, cs = gap ++ (part ++ behind) ∧ IsGap (part ++ behind) gap ∧ part ≠ [] ∧
      (p.afterAll gap).spanOf part =
        ⟨(us.head hne).span.start, (us.getLast hne).span.stop, (us.head hne).span.line⟩ ∧
      Excerpt part us := by
  induction us generalizing p cs with
  | nil => exact absurd rfl hne
  | cons t us ih =>
    obtain ⟨before, spelling, rest, rfl, hfirst, hrest⟩ := walk_first h
    have hkind := hkinds t List.mem_cons_self
    have hspelling := hfirst.spells.ne_nil
    cases us with
    | nil =>
      refine ⟨before, spelling, rest, rfl, hfirst.isGap, hspelling, hfirst.span.symm, ?_⟩
      have hstands : t.StandsIn p before spelling ([] ++ ([] ++ rest)) := hfirst
      simpa using Excerpt.nil.cons hstands hkind .nil fun _ => rfl
    | cons u us =>
      obtain ⟨gap, part, behind, rfl, hgap, hpart, hspan, hexcerpt⟩ :=
        ih (List.cons_ne_nil u us) (fun u hu => hkinds u (List.mem_cons_of_mem t hu)) hrest
      refine ⟨before, spelling ++ (gap ++ part), behind, by simp, by simpa using hfirst.isGap,
        by simp [hspelling], ?_, hexcerpt.cons hfirst hkind hgap fun hnil => absurd hnil hpart⟩
      have hstop := congrArg Span.stop hspan
      rw [List.getLast_cons (List.cons_ne_nil u us), List.head_cons, ← hstop, hfirst.span]
      simp [Position.spanOf]

end Scan

end BindingIdl
