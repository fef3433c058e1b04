import BindingIdl.Proofs.Token.Gaps

/-!
# Formatting does not matter

The tokens of a text can be set anew: each on a line of its own, with any blanks and closed comments
in between, and the same tokens are read again. `Token.respaced` is the new text, and
`Token.ofText_respaced` says that nothing but the places of the tokens changes.

Two facts meet here, and neither knows of the other: a token is read as a whole where a line ends
behind it (`Lexeme.ofHead_of_spells`), and a gap is passed over wherever it stands
(`Scan.walk_gap`). A separator is a gap in front of anything, since its comments end by themselves.
-/

namespace BindingIdl

/-- Blanks and comments that end by themselves, whatever follows. -/
inductive IsSeparator : List Char → Prop
  | nil : IsSeparator []
  | blank {c : Char} {cs : List Char} : c ∈ [' ', '\t', '\r', '\n', '\x0c'] → IsSeparator cs →
      IsSeparator (c :: cs)
  | line {body cs : List Char} : '\n' ∉ body → IsSeparator cs →
      IsSeparator ('/' :: '/' :: (body ++ '\n' :: cs))
  | block {body cs : List Char} : IsCommentBody body → IsSeparator cs →
      IsSeparator ('/' :: '*' :: (body ++ '*' :: '/' :: cs))

theorem IsSeparator.isGap {cs : List Char} (h : IsSeparator cs) (behind : List Char) :
    IsGap behind cs := by
  induction h with
  | nil => exact .nil
  | blank hc _ ih => exact .blank hc ih
  | line hbody _ ih => exact .line hbody (by simp) (.blank (by simp) ih)
  | block hbody _ ih => exact .block hbody ih

namespace Token

/-- What a token is without its place. -/
def word (t : Token) : TokenKind × String := (t.kind, t.text)

/-- The tokens without the one that stands for the end of the file. -/
def withoutEnd (ts : List Token) : List Token := ts.filter (·.kind ≠ .endOfFile)

/-- The tokens' texts, with a separator in front of the first and one behind each. -/
def respaced (first : String) (ts : List Token) (separators : List String) : String :=
  first ++ String.join (ts.zipWith (fun t separator => t.text ++ separator) separators)

/-- A separator that starts with the end of the line. -/
structure ClosesLine (separator : String) : Prop where
  isSeparator : IsSeparator separator.toList
  newline : separator.toList.head? = some '\n'

end Token

namespace Scan

/-- The texts of tokens with a separator behind each are read one by one. -/
theorem walk_respaced {ts : List Token} {separators : List String}
    (hlength : separators.length = ts.length)
    (hts : ∀ t ∈ ts, Lexeme.Spells t.kind t.text.toList)
    (hclose : ∀ s ∈ separators, Token.ClosesLine s) (p : Position) :
    ∃ us, walk 0 p (String.join
        (ts.zipWith (fun t separator => t.text ++ separator) separators)).toList = ⟨us, none⟩ ∧
      us.map Token.word = ts.map Token.word := by
  induction ts generalizing separators p with
  | nil => exact ⟨[], by simp [walk], rfl⟩
  | cons t ts ih =>
    cases separators with
    | nil => cases hlength
    | cons separator separators =>
      obtain ⟨hseparator, hnewline⟩ := hclose separator List.mem_cons_self
      obtain ⟨us, hrest, hwords⟩ := ih (Nat.succ.inj hlength)
        (fun u hu => hts u (List.mem_cons_of_mem _ hu))
        (fun s hs => hclose s (List.mem_cons_of_mem _ hs))
        ((p.afterAll t.text.toList).afterAll separator.toList)
      refine ⟨⟨t.kind, t.text, p.spanOf t.text.toList⟩ :: us, ?_, by simp [hwords, Token.word]⟩
      -- the separator starts with a line end, so no token runs on into it
      have hbehind : (separator.toList ++ (String.join
          (ts.zipWith (fun t separator => t.text ++ separator) separators)).toList).head? =
            some '\n' := by
        rw [List.head?_append, hnewline]
        rfl
      rw [List.zipWith_cons_cons, String.join_cons, String.toList_append, String.toList_append,
        List.append_assoc, walk_spelled (hts t List.mem_cons_self) hbehind,
        walk_gap (hseparator.isGap _), hrest, String.ofList_toList]
      rfl

end Scan

namespace Token

theorem withoutEnd_of_scan {text : String} {ts : List Token} (h : Scan.ofText text = ⟨ts, none⟩) :
    withoutEnd (ts ++ [endOf text]) = ts := by
  have hseen : ∀ t ∈ ts, decide (t.kind ≠ .endOfFile) = true := fun t ht =>
    decide_eq_true (Scan.kind_ne_endOfFile (by rw [h]; exact ht))
  rw [withoutEnd, List.filter_append, List.filter_eq_self.mpr hseen]
  simp [endOf]

/-- Tokens set anew are read again as they were. -/
theorem ofText_respaced {text : String} {ts : List Token} (h : ofText text = .ok ts)
    {first : String} (hfirst : IsSeparator first.toList) {separators : List String}
    (hlength : separators.length = (withoutEnd ts).length)
    (hclose : ∀ s ∈ separators, ClosesLine s) :
    ∃ us, ofText (respaced first (withoutEnd ts) separators) = .ok us ∧
      (withoutEnd us).map word = (withoutEnd ts).map word := by
  obtain ⟨ts, hscan, rfl⟩ := ofText_eq_ok_iff.mp h
  rw [withoutEnd_of_scan hscan] at hlength ⊢
  have hspells : ∀ t ∈ ts, Lexeme.Spells t.kind t.text.toList := by
    have hall := (Scan.cuts_ofText text).spells
    rwa [hscan] at hall
  obtain ⟨us, hwalk, hwords⟩ := Scan.walk_respaced hlength hspells hclose
    (Position.origin.afterAll first.toList)
  have hagain : Scan.ofText (respaced first ts separators) = ⟨us, none⟩ := by
    rw [Scan.ofText, respaced, String.toList_append, Scan.walk_gap (hfirst.isGap _), hwalk]
  refine ⟨us ++ [endOf (respaced first ts separators)], ofText_eq_ok_iff.mpr ⟨us, hagain, rfl⟩, ?_⟩
  rw [withoutEnd_of_scan hagain, hwords]

/-- A brace and a name. -/
def braceThenName : List Token :=
  [⟨.closeBrace, "\x7d", ⟨0, 1, 1⟩⟩, ⟨.identifier, "a", ⟨2, 3, 1⟩⟩, ⟨.endOfFile, "", ⟨3, 3, 1⟩⟩]

/-- Behind the end of its line, what would mark a closing brace is a comment like any other. -/
theorem braceThenName_respaced :
    ∃ us, ofText (respaced "/* x */" (withoutEnd braceThenName) ["\n///\\namespace\n", "\n"]) =
        .ok us ∧ (withoutEnd us).map word = (withoutEnd braceThenName).map word := by
  have hfirst : IsSeparator "/* x */".toList :=
    @IsSeparator.block [' ', 'x', ' '] [] (by decide) .nil
  have hmarker : IsSeparator "\n///\\namespace\n".toList :=
    .blank (by decide) (@IsSeparator.line "/\\namespace".toList [] (by decide) .nil)
  have hnewline : IsSeparator "\n".toList := .blank (by decide) .nil
  refine @ofText_respaced "\x7d a" braceThenName (by decide) _ hfirst _ (by decide) ?_
  rintro s (_ | ⟨_, _ | ⟨_, ⟨⟩⟩⟩)
  · exact ⟨hmarker, by decide⟩
  · exact ⟨hnewline, by decide⟩

end Token

end BindingIdl
