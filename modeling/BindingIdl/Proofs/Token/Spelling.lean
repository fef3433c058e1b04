import BindingIdl.Token.Scan
import Mathlib.Data.List.Infix

/-!
# How tokens are spelled

The rules of `Lexeme.ofHead` look at what follows a token to find where it ends. `Spells kind cs`
says what the characters of a token are, whatever follows them: one constructor for each way to
spell a token that a parser gets to see.

The two agree. What a rule takes for a token is spelled like one (`Lexeme.spells_taken`), and what
is spelled like a token is taken for that token again where a line ends behind it
(`Lexeme.ofHead_of_spells`). The end of the line matters: behind `12` a further `.5` makes another
token of it.
-/

namespace BindingIdl

namespace Lexeme

/-! ## Runs -/

theorem take_takeWhile (p : Char → Bool) (cs : List Char) :
    cs.take (cs.takeWhile p).length = cs.takeWhile p :=
  (List.prefix_iff_eq_take.mp (List.takeWhile_prefix p)).symm

theorem take_run (p : Char → Bool) (cs : List Char) : cs.take (run p cs) = cs.takeWhile p :=
  take_takeWhile p cs

theorem takeWhile_append_drop_run (p : Char → Bool) (cs : List Char) :
    cs.takeWhile p ++ cs.drop (run p cs) = cs := by
  rw [← take_run, List.take_append_drop]

theorem mem_takeWhile {p : Char → Bool} {cs : List Char} {d : Char} (h : d ∈ cs.takeWhile p) :
    p d = true :=
  List.all_eq_true.mp List.all_takeWhile d h

/-- A run ends at the first character that is not of the class. -/
theorem takeWhile_append_stop {α : Type} {p : α → Bool} {cs rest : List α}
    (hcs : ∀ c ∈ cs, p c = true) (hrest : ∀ c ∈ rest.head?, p c = false) :
    (cs ++ rest).takeWhile p = cs := by
  rw [List.takeWhile_append_of_pos hcs]
  cases rest with
  | nil => simp
  | cons c rest => simp [hrest c rfl]

/-- A run stops in front of the first character that is not in it. -/
theorem run_append_stop {p : Char → Bool} {cs rest : List Char} (hcs : ∀ c ∈ cs, p c = true)
    (hrest : ∀ c ∈ rest.head?, p c = false) : run p (cs ++ rest) = cs.length := by
  rw [run, takeWhile_append_stop hcs hrest]

/-- What follows a run is not of its class. -/
theorem head_drop_run {p : Char → Bool} {cs : List Char} {d : Char}
    (h : d ∈ (cs.drop (run p cs)).head?) : p d = false := by
  have hdrop : cs.drop (run p cs) = cs.dropWhile p := by
    have hsplit := (takeWhile_append_drop_run p cs).trans
      (List.takeWhile_append_dropWhile (p := p) (l := cs)).symm
    exact List.append_cancel_left hsplit
  rw [hdrop] at h
  have hhead := List.head?_dropWhile_not p cs
  rw [h] at hhead
  simpa using hhead

/-! ## Quoted texts -/

/-- What may stand between quotes: no line end, no quote and no backslash, except that a backslash
takes the meaning from the character behind it. -/
inductive IsQuotedBody : List Char → Prop
  | nil : IsQuotedBody []
  | plain {c : Char} {cs : List Char} : c ∉ ['\n', '"', '\\'] → IsQuotedBody cs →
      IsQuotedBody (c :: cs)
  | escaped {c : Char} {cs : List Char} : c ≠ '\n' → IsQuotedBody cs →
      IsQuotedBody ('\\' :: c :: cs)

/-- A quoted text ends at its first quote that is not escaped. -/
theorem throughQuote_of_isQuotedBody {body : List Char} (h : IsQuotedBody body)
    (rest : List Char) : throughQuote false (body ++ '"' :: rest) = some (body.length + 1) := by
  induction h with
  | nil => simp [throughQuote]
  | plain hc _ ih =>
    simp only [List.mem_cons, List.not_mem_nil, or_false, not_or] at hc
    simp [throughQuote, hc, ih]
  | escaped hc _ ih => simp [throughQuote, hc, ih]

/-- What stands in front of the first quote that is not escaped is a body. -/
theorem isQuotedBody_of_throughQuote : ∀ {cs : List Char} {n : Nat},
    throughQuote false cs = some n →
      ∃ body rest, cs = body ++ '"' :: rest ∧ n = body.length + 1 ∧ IsQuotedBody body
  | [], _, h => by cases h
  | c :: cs, n, h => by
    rw [throughQuote] at h
    split at h
    · cases h
    rename_i hline
    rw [if_neg Bool.false_ne_true] at h
    split at h
    · rename_i hquote
      cases h
      exact ⟨[], cs, by rw [hquote]; rfl, rfl, .nil⟩
    rename_i hquote
    obtain ⟨m, hm, rfl⟩ := Option.map_eq_some_iff.mp h
    -- a backslash is part of the body together with what stands behind it
    by_cases hback : c = '\\'
    · subst hback
      match cs, hm with
      | [], hm => cases hm
      | d :: cs, hm =>
        rw [decide_eq_true rfl, throughQuote] at hm
        split at hm
        · cases hm
        rename_i hnext
        rw [if_pos rfl] at hm
        obtain ⟨k, hk, rfl⟩ := Option.map_eq_some_iff.mp hm
        obtain ⟨body, rest, rfl, rfl, hbody⟩ := isQuotedBody_of_throughQuote hk
        exact ⟨'\\' :: d :: body, rest, rfl, rfl, .escaped hnext hbody⟩
    · rw [decide_eq_false hback] at hm
      obtain ⟨body, rest, rfl, rfl, hbody⟩ := isQuotedBody_of_throughQuote hm
      exact ⟨c :: body, rest, rfl, rfl, .plain (by simp [hline, hquote, hback]) hbody⟩

/-! ## Exponents -/

/-- Nothing, or a whole exponent. -/
inductive IsExponent : List Char → Prop
  | absent : IsExponent []
  | present {e : Char} {sign : List Char} {d : Char} {ds : List Char} : e ∈ ['e', 'E'] →
      sign ∈ [[], ['+'], ['-']] → (∀ x ∈ d :: ds, x.isDigit = true) →
      IsExponent (e :: sign ++ d :: ds)

/-- How many characters the sign in front of the digits takes. -/
theorem sign_mem (cs : List Char) :
    cs.take (if cs.head? = some '+' || cs.head? = some '-' then 1 else 0) ∈ [[], ['+'], ['-']] := by
  cases cs with
  | nil => simp
  | cons c cs =>
    by_cases hplus : c = '+'
    · simp [hplus]
    · by_cases hminus : c = '-' <;> simp [hplus, hminus]

theorem isExponent_take (cs : List Char) : IsExponent (cs.take (exponent cs)) := by
  cases cs with
  | nil => exact .absent
  | cons e cs =>
    have hsign := sign_mem cs
    unfold exponent
    dsimp only
    generalize (if cs.head? = some '+' || cs.head? = some '-' then 1 else 0) = sign at hsign ⊢
    split
    · rename_i h
      simp only [Bool.and_eq_true, Bool.or_eq_true, decide_eq_true_eq] at h
      obtain ⟨he, hdigits⟩ := h
      obtain ⟨d, ds, hds⟩ : ∃ d ds, (cs.drop sign).takeWhile Char.isDigit = d :: ds :=
        List.exists_cons_of_length_pos hdigits
      have htake : (e :: cs).take (1 + sign + run Char.isDigit (cs.drop sign)) =
          e :: cs.take sign ++ d :: ds := by
        rw [Nat.add_assoc, Nat.add_comm 1, List.take_succ_cons, List.take_add, take_run, hds]
        rfl
      rw [htake]
      refine .present (by simpa using he) hsign fun x hx => ?_
      rw [← hds] at hx
      exact mem_takeWhile hx
    · exact .absent

/-- An exponent is taken as a whole at the end of a line. -/
theorem exponent_of_isExponent {exp : List Char} (h : IsExponent exp) (rest : List Char) :
    exponent (exp ++ '\n' :: rest) = exp.length := by
  cases h with
  | absent => rfl
  | @present e sign d ds he hsign hds =>
    have hrun : run Char.isDigit (d :: (ds ++ '\n' :: rest)) = ds.length + 1 :=
      run_append_stop hds (by rintro _ ⟨⟩; rfl)
    have hd : d ≠ '+' ∧ d ≠ '-' := by
      have := hds d List.mem_cons_self
      constructor <;> rintro rfl <;> revert this <;> decide
    have he' : (decide (e = 'e') || decide (e = 'E')) = true := by simpa using he
    simp only [List.mem_cons, List.not_mem_nil, or_false] at hsign
    obtain rfl | rfl | rfl := hsign
    all_goals
      simp [exponent, he', hd.1, hd.2, hrun]
      omega

/-! ## Spellings -/

/-- How the tokens of a kind are spelled. -/
inductive Spells : TokenKind → List Char → Prop
  /-- A keyword, or else an identifier. -/
  | word {kind : TokenKind} {c : Char} {cs : List Char}
      (hkind : (TokenKind.keyword? (String.ofList (c :: cs))).getD .identifier = kind)
      (hc : isWordStart c = true) (hcs : ∀ d ∈ cs, isWordRest d = true) : Spells kind (c :: cs)
  | integer {c : Char} {cs : List Char} (hc : c.isDigit = true)
      (hcs : ∀ d ∈ cs, isNumberRest d = true) : Spells .integer (c :: cs)
  | decimal {c d : Char} {whole fraction exp : List Char} (hc : c.isDigit = true)
      (hwhole : ∀ x ∈ whole, isNumberRest x = true) (hd : d.isDigit = true)
      (hfraction : ∀ x ∈ fraction, isNumberRest x = true) (hexp : IsExponent exp) :
      Spells .decimal (c :: (whole ++ '.' :: d :: (fraction ++ exp)))
  | quoted {body : List Char} (hbody : IsQuotedBody body) : Spells .quoted ('"' :: (body ++ ['"']))
  | namespaceEnd {blanks : List Char} (hblanks : ∀ d ∈ blanks, isInlineBlank d = true) :
      Spells .namespaceEnd ('\x7d' :: (blanks ++ endMarker))
  | closeBrace : Spells .closeBrace ['\x7d']
  | includeLine {front behind path : List Char} (hfront : ∀ d ∈ front, isInlineBlank d = true)
      (hbehind : ∀ d ∈ behind, isInlineBlank d = true) (hclosed : '>' ∉ path)
      (hline : '\n' ∉ path) :
      Spells .includeLine ('#' :: (front ++ (includeWord ++ (behind ++ '<' :: (path ++ ['>'])))))
  | doubleColon : Spells .doubleColon [':', ':']
  /-- A mark, or any other character that begins none of the above. -/
  | mark {kind : TokenKind} {c : Char} (hkind : single c = kind) (hblank : isBlank c = false)
      (hword : isWordStart c = false) (hdigit : c.isDigit = false)
      (hquote : c ∉ ['"', '\x7d']) : Spells kind [c]

variable {kind : TokenKind} {c : Char} {cs : List Char}

/-- No token is spelled with nothing. -/
theorem Spells.ne_nil (h : Spells kind cs) : cs ≠ [] := by
  cases h <;> exact List.cons_ne_nil _ _

/-! ## What each rule can make -/

/-- An identifier is what is no keyword. -/
theorem keyword?_ne_identifier {s : String} : TokenKind.keyword? s ≠ some .identifier := by
  unfold TokenKind.keyword?
  split <;> simp

/-- The kinds of words. -/
theorem keyword?_getD_mem (s : String) : (TokenKind.keyword? s).getD .identifier ∈
    [.namespaceKeyword, .classKeyword, .staticKeyword, .constKeyword, .identifier] := by
  unfold TokenKind.keyword?
  split <;> simp

/-- The kinds of marks. -/
theorem single_mem (c : Char) : single c ∈
    [.openParen, .closeParen, .openBrace, .less, .greater, .comma, .semicolon, .ampersand, .star,
      .equals, .unknown] := by
  unfold single
  split <;> simp

/-- No token that is spelled out is a comment, or the end of the file. -/
theorem Spells.kind_notMem (h : Spells kind cs) : kind ∉ [.blockComment, .endOfFile] := by
  cases h with
  | word hkind =>
    intro hmem
    simp only [List.mem_cons, List.not_mem_nil, or_false] at hmem
    obtain rfl | rfl := hmem <;> exact absurd (hkind ▸ keyword?_getD_mem _) (by decide)
  | mark hkind =>
    intro hmem
    simp only [List.mem_cons, List.not_mem_nil, or_false] at hmem
    obtain rfl | rfl := hmem <;> exact absurd (hkind ▸ single_mem _) (by decide)
  | _ => decide

theorem role_word (c : Char) (cs : List Char) : (word c cs).role ∈
    [.token .namespaceKeyword, .token .classKeyword, .token .staticKeyword, .token .constKeyword,
      .token .identifier] :=
  List.mem_map_of_mem (keyword?_getD_mem _)

theorem role_number (cs : List Char) :
    (number cs).role ∈ [.token .decimal, .token .integer] := by
  unfold number
  dsimp only
  split
  · split <;> simp
  · simp

theorem role_quote (cs : List Char) :
    (quote cs).role ∈ [.token .quoted, .fault .unterminatedString] := by
  unfold quote
  split <;> simp

theorem role_brace (cs : List Char) :
    (brace cs).role ∈ [.token .namespaceEnd, .token .closeBrace] := by
  unfold brace
  dsimp only
  split <;> simp

theorem role_hash (cs : List Char) :
    (hash cs).role ∈ [.token .includeLine, .token .unknown, .fault .invalidInput] := by
  unfold hash includePath
  dsimp only
  split
  · split
    · split <;> simp
    · simp
  · split <;> simp

theorem role_colon (cs : List Char) :
    (colon cs).role ∈ [.token .doubleColon, .token .unknown] := by
  unfold colon
  split <;> simp

/-! ## What is taken for a token is spelled like one -/

theorem spells_word (hc : isWordStart c = true) (h : (word c cs).role = .token kind) :
    Spells kind (c :: cs.take (word c cs).more) := by
  have hkind := LexemeClass.token.inj h
  rw [word]
  dsimp only
  rw [take_takeWhile]
  exact .word hkind hc fun d => mem_takeWhile

/-- A number is an integer, unless a point with a digit behind it makes it a decimal. -/
theorem spells_number (hc : c.isDigit = true) (h : (number cs).role = .token kind) :
    Spells kind (c :: cs.take (number cs).more) := by
  have hwhole : ∀ x ∈ cs.takeWhile isNumberRest, isNumberRest x = true := fun x => mem_takeWhile
  have hinteger : Spells .integer (c :: cs.take (run isNumberRest cs)) := by
    rw [take_run]
    exact .integer hc hwhole
  unfold number at h ⊢
  dsimp only at h ⊢
  split at h
  · rename_i d rest hdrop
    split at h
    · rename_i hd
      cases h
      rw [if_pos hd]
      dsimp only
      -- the whole part, the point with its digit, the digits behind it and the exponent, one by one
      have htake : cs.take (run isNumberRest cs + 2 + run isNumberRest rest +
            exponent (rest.drop (run isNumberRest rest))) =
          cs.takeWhile isNumberRest ++ '.' :: d :: (rest.takeWhile isNumberRest ++
            (rest.drop (run isNumberRest rest)).take
              (exponent (rest.drop (run isNumberRest rest)))) := by
        rw [Nat.add_assoc, Nat.add_assoc, List.take_add, take_run, hdrop, Nat.add_comm 2]
        simp only [List.take_succ_cons, List.take_add, take_run]
      rw [htake]
      exact .decimal hc hwhole hd (fun x => mem_takeWhile) (isExponent_take _)
    · rename_i hd
      cases h
      rw [if_neg hd]
      exact hinteger
  · cases h
    exact hinteger

theorem spells_quote (h : (quote cs).role = .token kind) :
    Spells kind ('"' :: cs.take (quote cs).more) := by
  unfold quote at h ⊢
  split at h
  · rename_i n hn
    cases h
    obtain ⟨body, rest, rfl, rfl, hbody⟩ := isQuotedBody_of_throughQuote hn
    have htake : (body ++ '"' :: rest).take (body.length + 1) = body ++ ['"'] := by
      rw [List.take_length_add_append]
      rfl
    rw [htake]
    exact .quoted hbody
  · cases h

theorem spells_brace (h : (brace cs).role = .token kind) :
    Spells kind ('\x7d' :: cs.take (brace cs).more) := by
  unfold brace at h ⊢
  dsimp only at h ⊢
  split at h
  · rename_i hmarker
    cases h
    rw [if_pos hmarker]
    dsimp only
    have htake := (List.prefix_iff_eq_take.mp (List.isPrefixOf_iff_prefix.mp hmarker)).symm
    rw [List.take_add, htake, take_run]
    exact .namespaceEnd fun d => mem_takeWhile
  · rename_i hmarker
    cases h
    rw [if_neg hmarker]
    exact .closeBrace

/-- What an include line takes behind its word. -/
theorem includePath_taken {before : Nat} (h : (includePath before cs).role = .token kind) :
    kind = .includeLine ∧ ∃ k behind path, (includePath before cs).more = before + k ∧
      cs.take k = behind ++ '<' :: (path ++ ['>']) ∧ (∀ d ∈ behind, isInlineBlank d = true) ∧
      '>' ∉ path ∧ '\n' ∉ path := by
  have hbehind := takeWhile_append_drop_run isInlineBlank cs
  unfold includePath at h ⊢
  dsimp only at h ⊢
  split at h
  · rename_i path hpath
    have hinside := takeWhile_append_drop_run (fun c => c ≠ '>' && c ≠ '\n') path
    split at h
    · rename_i hclose
      cases h
      rw [if_pos hclose]
      obtain ⟨rest, hrest⟩ := List.head?_eq_some_iff.mp hclose
      refine ⟨rfl, run isInlineBlank cs + run (fun c => c ≠ '>' && c ≠ '\n') path + 2,
        cs.takeWhile isInlineBlank, path.takeWhile fun c => c ≠ '>' && c ≠ '\n',
        by dsimp only; omega, ?_, fun d => mem_takeWhile, fun hmem => ?_, fun hmem => ?_⟩
      · -- the blanks, the bracketed path, and what the line goes on with
        have hsplit : cs = (cs.takeWhile isInlineBlank ++
            '<' :: ((path.takeWhile fun c => c ≠ '>' && c ≠ '\n') ++ ['>'])) ++ rest := by
          rw [hpath, ← hinside, hrest] at hbehind
          simpa using hbehind.symm
        refine (congrArg (List.take _) hsplit).trans (List.take_left' ?_)
        simp only [run, List.length_append, List.length_cons, List.length_nil]
        omega
      · exact absurd (mem_takeWhile hmem) (by decide)
      · exact absurd (mem_takeWhile hmem) (by decide)
    · cases h
  · cases h

/-- An include line is complete up to its bracket; a `#` in front of anything else is a token of its
own. -/
theorem spells_hash (h : (hash cs).role = .token kind) :
    Spells kind ('#' :: cs.take (hash cs).more) := by
  unfold hash at h ⊢
  dsimp only at h ⊢
  split at h
  · rename_i hinclude
    obtain ⟨rfl, k, behind, path, hmore, htake, hbehind, hclosed, hline⟩ := includePath_taken h
    have hword := (List.prefix_iff_eq_take.mp (List.isPrefixOf_iff_prefix.mp hinclude)).symm
    rw [if_pos hinclude, hmore, List.take_add, htake, List.take_add, hword, take_run,
      List.append_assoc]
    exact .includeLine (fun d => mem_takeWhile) hbehind hclosed hline
  · rename_i hinclude
    rw [if_neg hinclude]
    split at h
    · rename_i hblanks
      cases h
      rw [if_pos hblanks]
      exact .mark rfl rfl rfl rfl (by decide)
    · cases h

theorem spells_colon (h : (colon cs).role = .token kind) :
    Spells kind (':' :: cs.take (colon cs).more) := by
  unfold colon at h ⊢
  split at h
  · cases h
    exact .doubleColon
  · cases h
    exact .mark rfl rfl rfl rfl (by decide)

/-- A comment is no token that a parser gets to see, so what is left is a lone slash. -/
theorem spells_slash (h : (slash cs).role = .token kind) (hseen : kind.isTrivia = false) :
    Spells kind ('/' :: cs.take (slash cs).more) := by
  unfold slash at h ⊢
  split at h
  · cases h
  · split at h <;> cases h
    cases hseen
  · cases h
    exact .mark rfl rfl rfl rfl (by decide)

/-! ## One rule for each first character -/

theorem isBlank_iff_mem : isBlank c = true ↔ c ∈ [' ', '\t', '\r', '\n', '\x0c'] := by
  simp [isBlank, or_assoc]

/-- A class without the blanks in it. -/
theorem isBlank_of_class {p : Char → Bool} (h : p c = true)
    (hp : [' ', '\t', '\r', '\n', '\x0c'].any p = false) : isBlank c = false :=
  eq_false_of_ne_true fun hblank => List.any_eq_false.mp hp c (isBlank_iff_mem.mp hblank) h

theorem isWordStart_of_isDigit (h : c.isDigit = true) : isWordStart c = false := by
  obtain ⟨-, hlast⟩ : '0' ≤ c ∧ c ≤ '9' := by simpa [Char.isDigit, Char.le_def] using h
  -- both ranges of letters are behind the digits
  have hupper : c.isUpper = false := by
    refine eq_false_of_ne_true fun hup => ?_
    have hfirst : 'A' ≤ c := (of_decide_eq_true hup).1
    exact absurd (Char.le_trans hfirst hlast) (by decide)
  have hlower : c.isLower = false := by
    refine eq_false_of_ne_true fun hlow => ?_
    have hfirst : 'a' ≤ c := of_decide_eq_true (Bool.and_eq_true_iff.mp hlow).1
    exact absurd (Char.le_trans hfirst hlast) (by decide)
  have hscore : c ≠ '_' := by
    rintro rfl
    cases h
  have hletter : c.isAlpha = (c.isUpper || c.isLower) := rfl
  simp [isWordStart, hletter, hupper, hlower, hscore]

theorem ofHead_word (h : isWordStart c = true) (cs : List Char) : ofHead c cs = word c cs := by
  unfold ofHead
  rw [isBlank_of_class h (by decide), if_neg Bool.false_ne_true, if_pos h]

theorem ofHead_number (h : c.isDigit = true) (cs : List Char) : ofHead c cs = number cs := by
  unfold ofHead
  rw [isBlank_of_class h (by decide), if_neg Bool.false_ne_true, isWordStart_of_isDigit h,
    if_neg Bool.false_ne_true, if_pos h]

theorem ofHead_slash (cs : List Char) : ofHead '/' cs = slash cs := rfl

theorem ofHead_quote (cs : List Char) : ofHead '"' cs = quote cs := rfl

theorem ofHead_brace (cs : List Char) : ofHead '\x7d' cs = brace cs := rfl

theorem ofHead_hash (cs : List Char) : ofHead '#' cs = hash cs := rfl

/-- The rule that reads `c :: cs`, by its first character. -/
inductive ReadBy (c : Char) (cs : List Char) : Lexeme → Prop
  | blank (hc : isBlank c = true) : ReadBy c cs ⟨.gap, run isBlank cs⟩
  | word (hc : isWordStart c = true) : ReadBy c cs (word c cs)
  | number (hc : c.isDigit = true) : ReadBy c cs (number cs)
  | slash (hc : c = '/') : ReadBy c cs (slash cs)
  | quote (hc : c = '"') : ReadBy c cs (quote cs)
  | brace (hc : c = '\x7d') : ReadBy c cs (brace cs)
  | hash (hc : c = '#') : ReadBy c cs (hash cs)
  | colon (hc : c = ':') : ReadBy c cs (colon cs)
  | mark (hblank : isBlank c = false) (hword : isWordStart c = false)
      (hdigit : c.isDigit = false) (hquote : c ∉ ['"', '\x7d']) :
      ReadBy c cs ⟨.token (single c), 0⟩

/-- By the first character one rule reads a lexeme, and only that rule. -/
theorem readBy_ofHead (c : Char) (cs : List Char) : ReadBy c cs (ofHead c cs) := by
  unfold ofHead
  split
  · exact .blank ‹_›
  split
  · exact .word ‹_›
  split
  · exact .number ‹_›
  split
  · exact .slash ‹_›
  split
  · exact .quote ‹_›
  split
  · exact .brace ‹_›
  split
  · exact .hash ‹_›
  split
  · exact .colon ‹_›
  · rename_i hblank hword hdigit _ hquote hbrace _ _
    refine .mark (eq_false_of_ne_true hblank) (eq_false_of_ne_true hword)
      (eq_false_of_ne_true hdigit) ?_
    simp [hquote, hbrace]

/-- The characters that a rule takes for a token are spelled like one. -/
theorem spells_taken (h : (ofHead c cs).role = .token kind) (hseen : kind.isTrivia = false) :
    Spells kind (c :: cs.take (ofHead c cs).more) := by
  have hread := readBy_ofHead c cs
  generalize ofHead c cs = lexeme at h hread ⊢
  cases hread with
  | blank => cases h
  | word hc => exact spells_word hc h
  | number hc => exact spells_number hc h
  | slash hc => exact hc ▸ spells_slash h hseen
  | quote hc => exact hc ▸ spells_quote h
  | brace hc => exact hc ▸ spells_brace h
  | hash hc => exact hc ▸ spells_hash h
  | colon hc => exact hc ▸ spells_colon h
  | mark hblank hword hdigit hquote =>
    exact .mark (LexemeClass.token.inj h) hblank hword hdigit hquote

/-! ## What is spelled like a token is taken for it -/

/-- A path between brackets on one line is taken up to the bracket that closes it. -/
theorem includePath_spelled {behind path : List Char}
    (hbehind : ∀ d ∈ behind, isInlineBlank d = true)
    (hclosed : '>' ∉ path) (hline : '\n' ∉ path) (before : Nat) (rest : List Char) :
    includePath before (behind ++ '<' :: (path ++ '>' :: rest)) =
      ⟨.token .includeLine, before + behind.length + path.length + 2⟩ := by
  have hblanks : run isInlineBlank (behind ++ '<' :: (path ++ '>' :: rest)) = behind.length :=
    run_append_stop hbehind (by rintro _ ⟨⟩; rfl)
  have hinside : run (fun c => c ≠ '>' && c ≠ '\n') (path ++ '>' :: rest) = path.length := by
    refine run_append_stop (fun c hc => ?_) (by rintro _ ⟨⟩; rfl)
    have hc' : c ≠ '>' := fun h => hclosed (h ▸ hc)
    have hc'' : c ≠ '\n' := fun h => hline (h ▸ hc)
    simp [hc', hc'']
  unfold includePath
  dsimp only
  rw [hblanks, List.drop_left]
  simp only [hinside, List.drop_left, List.head?_cons, if_true]

/-- A whole include line is read wherever it stands. -/
theorem hash_spelled {front behind path : List Char} (hfront : ∀ d ∈ front, isInlineBlank d = true)
    (hbehind : ∀ d ∈ behind, isInlineBlank d = true) (hclosed : '>' ∉ path) (hline : '\n' ∉ path)
    (rest : List Char) :
    hash (front ++ (includeWord ++ (behind ++ '<' :: (path ++ '>' :: rest)))) =
      ⟨.token .includeLine,
        front.length + includeWord.length + behind.length + path.length + 2⟩ := by
  have hblanks : run isInlineBlank (front ++ (includeWord ++
      (behind ++ '<' :: (path ++ '>' :: rest)))) = front.length :=
    run_append_stop hfront (by rintro _ ⟨⟩; rfl)
  unfold hash
  dsimp only
  rw [hblanks, List.drop_left, if_pos (List.isPrefixOf_iff_prefix.mpr (List.prefix_append _ _)),
    ← List.append_assoc, ← List.length_append, List.drop_left,
    includePath_spelled hbehind hclosed hline]

theorem number_integer {cs rest : List Char} (hcs : ∀ d ∈ cs, isNumberRest d = true) :
    number (cs ++ '\n' :: rest) = ⟨.token .integer, cs.length⟩ := by
  unfold number
  dsimp only
  rw [run_append_stop hcs (by rintro _ ⟨⟩; rfl), List.drop_left]
  rfl

/-- A decimal is taken with its fraction and its exponent. -/
theorem number_decimal {whole fraction exp : List Char} {d : Char}
    (hwhole : ∀ x ∈ whole, isNumberRest x = true) (hd : d.isDigit = true)
    (hfraction : ∀ x ∈ fraction, isNumberRest x = true) (hexp : IsExponent exp)
    (rest : List Char) :
    number (whole ++ '.' :: d :: (fraction ++ (exp ++ '\n' :: rest))) =
      ⟨.token .decimal, whole.length + 2 + fraction.length + exp.length⟩ := by
  have hstop : ∀ x ∈ (exp ++ '\n' :: rest).head?, isNumberRest x = false := by
    cases hexp with
    | absent => rintro _ ⟨⟩; rfl
    | present he _ _ =>
      rintro _ ⟨⟩
      simp only [List.mem_cons, List.not_mem_nil, or_false] at he
      obtain rfl | rfl := he <;> rfl
  unfold number
  dsimp only
  rw [run_append_stop hwhole (by rintro _ ⟨⟩; rfl), List.drop_left]
  simp only [hd, if_true, run_append_stop hfraction hstop, List.drop_left,
    exponent_of_isExponent hexp]

/-- A brace and the marker behind it are one token, with the blanks between them. -/
theorem brace_marker {blanks : List Char} (hblanks : ∀ d ∈ blanks, isInlineBlank d = true)
    (rest : List Char) : brace (blanks ++ (endMarker ++ rest)) =
      ⟨.token .namespaceEnd, blanks.length + endMarker.length⟩ := by
  unfold brace
  dsimp only
  rw [run_append_stop hblanks (by rintro _ ⟨⟩; rfl), List.drop_left,
    if_pos (List.isPrefixOf_iff_prefix.mpr (List.prefix_append _ _))]

/-- No mark goes on behind the end of its line. -/
theorem ofHead_mark (hblank : isBlank c = false) (hword : isWordStart c = false)
    (hdigit : c.isDigit = false) (hquote : c ∉ ['"', '\x7d']) (rest : List Char) :
    ofHead c ('\n' :: rest) = ⟨.token (single c), 0⟩ := by
  simp only [List.mem_cons, List.not_mem_nil, or_false, not_or] at hquote
  unfold ofHead
  rw [hblank, if_neg Bool.false_ne_true, hword, if_neg Bool.false_ne_true, hdigit,
    if_neg Bool.false_ne_true]
  split
  · rename_i hc
    rw [hc]
    rfl
  rw [if_neg hquote.1, if_neg hquote.2]
  split
  · rename_i hc
    rw [hc]
    rfl
  split
  · rename_i hc
    rw [hc]
    rfl
  · rfl

/-- A token is read again as a whole, and nothing more, where a line ends behind it. -/
theorem ofHead_of_spells (h : Spells kind (c :: cs)) (rest : List Char) :
    ofHead c (cs ++ '\n' :: rest) = ⟨.token kind, cs.length⟩ := by
  cases h with
  | word hkind hc hcs =>
    rw [ofHead_word hc, word, takeWhile_append_stop hcs (by rintro _ ⟨⟩; rfl), hkind]
  | integer hc hcs => rw [ofHead_number hc, number_integer hcs]
  | decimal hc hwhole hd hfraction hexp =>
    have hnumber := number_decimal hwhole hd hfraction hexp rest
    simp only [ofHead_number hc, List.append_assoc, List.cons_append, hnumber, List.length_append,
      List.length_cons, Lexeme.mk.injEq, true_and]
    omega
  | quoted hbody =>
    rw [ofHead_quote, quote, List.append_assoc, List.singleton_append,
      throughQuote_of_isQuotedBody hbody, List.length_append]
    rfl
  | namespaceEnd hblanks =>
    rw [ofHead_brace, List.append_assoc, brace_marker hblanks, List.length_append]
  | closeBrace => rfl
  | includeLine hfront hbehind hclosed hline =>
    have hhash := hash_spelled hfront hbehind hclosed hline ('\n' :: rest)
    simp only [List.append_assoc, List.cons_append, List.nil_append, ofHead_hash, hhash,
      List.length_append, List.length_cons, List.length_nil, Lexeme.mk.injEq, true_and]
    omega
  | doubleColon => rfl
  | mark hkind hblank hword hdigit hquote =>
    rw [← hkind]
    exact ofHead_mark hblank hword hdigit hquote rest

end Lexeme

end BindingIdl
