import BindingIdl.Proofs.Declaration.Shift
import BindingIdl.Proofs.Token.Gaps
import BindingIdl.Proofs.Text.Stretch

/-!
# Two texts with a line end between them

A lexeme at the end of a text is the same lexeme with the end of a line and more text behind it: no
rule takes a line end into a token, and none looks past one to decide what it takes
(`Lexeme.ofHead_line`). Only an open comment can go on, which is a fault as long as it is open. So
the scan of the longer text is the scan of the first part and then that of the second one,
further on (`Scan.ofText_join`), and a fault in the first part stays, unless the second one has an
end for an open comment (`Scan.fault_eq_none_of_join`).
-/

namespace BindingIdl

namespace Lexeme

variable {c : Char} {cs ds : List Char}

/-! ## Lexemes -/

/-- A word without a line end is found in front of it or not at all. -/
theorem isPrefixOf_line {word : List Char} (hword : '\n' ∉ word) :
    word.isPrefixOf (cs ++ '\n' :: ds) = word.isPrefixOf cs := by
  induction word generalizing cs with
  | nil => simp
  | cons w word ih =>
    simp only [List.mem_cons, not_or] at hword
    cases cs with
    | nil => simp [List.isPrefixOf, Ne.symm hword.1]
    | cons c cs => simp [List.isPrefixOf, ih hword.2]

theorem run_le_length (p : Char → Bool) (cs : List Char) : run p cs ≤ cs.length :=
  (List.takeWhile_prefix p).length_le

theorem takeWhile_line {p : Char → Bool} (hp : p '\n' = false) :
    (cs ++ '\n' :: ds).takeWhile p = cs.takeWhile p := by
  induction cs with
  | nil => simp [hp]
  | cons c cs ih => simp [List.takeWhile_cons, ih]

/-- A run ends with the line, unless line ends may be in it. -/
theorem run_line {p : Char → Bool} (hp : p '\n' = false) :
    run p (cs ++ '\n' :: ds) = run p cs := by
  rw [run, takeWhile_line hp, run]

/-- How much the sign of an exponent takes, if there is one. -/
def signLength (cs : List Char) : Nat :=
  if cs.head? = some '+' || cs.head? = some '-' then 1 else 0

theorem exponent_cons (e : Char) (cs : List Char) :
    exponent (e :: cs) =
      if (e = 'e' || e = 'E') && run Char.isDigit (cs.drop (signLength cs)) > 0 then
        1 + signLength cs + run Char.isDigit (cs.drop (signLength cs))
      else 0 := rfl

theorem signLength_le (cs : List Char) : signLength cs ≤ cs.length := by
  unfold signLength
  cases cs with
  | nil => simp
  | cons c cs => split <;> simp

/-- The sign of an exponent stands in front of the line end. -/
theorem signLength_line : signLength (cs ++ '\n' :: ds) = signLength cs := by
  cases cs with
  | nil => rfl
  | cons c cs => rfl

/-- An exponent ends with the line at the latest. -/
theorem exponent_line : exponent (cs ++ '\n' :: ds) = exponent cs := by
  cases cs with
  | nil => rfl
  | cons e cs =>
    rw [List.cons_append, exponent_cons, exponent_cons, signLength_line,
      List.drop_append_of_le_length (signLength_le cs), run_line rfl]

theorem exponent_le_length (cs : List Char) : exponent cs ≤ cs.length := by
  cases cs with
  | nil => exact Nat.le_refl _
  | cons e cs =>
    have hrun := run_le_length Char.isDigit (cs.drop (signLength cs))
    have hsign := signLength_le cs
    rw [List.length_drop] at hrun
    rw [exponent_cons, List.length_cons]
    split <;> omega

/-- Behind `cs` the rule takes nothing of the end of a line or what stands behind it. -/
def EndsAtLine (rule : List Char → Lexeme) (cs ds : List Char) : Prop :=
  rule (cs ++ '\n' :: ds) = rule cs ∧ (rule cs).more ≤ cs.length

theorem word_line : EndsAtLine (word c) cs ds := by
  have hrun : (cs ++ '\n' :: ds).takeWhile isWordRest = cs.takeWhile isWordRest :=
    takeWhile_line rfl
  exact ⟨by rw [word, hrun, word], run_le_length isWordRest cs⟩

/-- A number may have a point, digits behind it and an exponent, all on its line. -/
theorem number_line : EndsAtLine number cs ds := by
  have hwhole := run_le_length isNumberRest cs
  have hlength : (cs.drop (run isNumberRest cs)).length = cs.length - run isNumberRest cs :=
    List.length_drop
  unfold EndsAtLine number
  dsimp only
  rw [run_line rfl, List.drop_append_of_le_length hwhole]
  generalize cs.drop (run isNumberRest cs) = behind at hlength ⊢
  cases behind with
  | nil => exact ⟨rfl, hwhole⟩
  | cons c rest =>
    by_cases hpoint : c = '.'
    · subst hpoint
      cases rest with
      | nil => exact ⟨rfl, hwhole⟩
      | cons d rest =>
        have hfraction := run_le_length isNumberRest rest
        have hexp := exponent_le_length (rest.drop (run isNumberRest rest))
        simp only [List.cons_append, List.length_cons, List.length_drop] at hlength hexp ⊢
        rw [run_line rfl, List.drop_append_of_le_length hfraction, exponent_line]
        refine ⟨rfl, ?_⟩
        split
        · dsimp only
          omega
        · exact hwhole
    · simp [hpoint, hwhole]

theorem throughCommentEnd_line {n : Nat} (h : throughCommentEnd cs = some n) (ds : List Char) :
    throughCommentEnd (cs ++ ds) = some n ∧ n ≤ cs.length := by
  obtain ⟨body, rest, rfl, rfl, hbody⟩ := isCommentBody_of_throughCommentEnd h
  rw [List.append_assoc]
  exact ⟨throughCommentEnd_of_isCommentBody hbody _, by simp⟩

theorem throughQuote_line {n : Nat} (h : throughQuote false cs = some n) (ds : List Char) :
    throughQuote false (cs ++ ds) = some n ∧ n ≤ cs.length := by
  obtain ⟨body, rest, rfl, rfl, hbody⟩ := isQuotedBody_of_throughQuote h
  rw [List.append_assoc]
  exact ⟨throughQuote_of_isQuotedBody hbody _, by simp⟩

/-- What has no end of a comment in it does not end one that is open. -/
theorem throughCommentEnd_line_eq_none (h : throughCommentEnd cs = none)
    (hds : throughCommentEnd ds = none) : throughCommentEnd (cs ++ '\n' :: ds) = none := by
  induction cs with
  | nil => rw [List.nil_append, throughCommentEnd_cons (by simp), hds, Option.map_none]
  | cons c cs ih =>
    have hclose : ¬ ['*', '/'] <+: c :: cs := fun hlead =>
      not_infix_of_throughCommentEnd h hlead.isInfix
    have hclose' : ¬ ['*', '/'] <+: c :: (cs ++ '\n' :: ds) := by
      cases cs with
      | nil => simp
      | cons d cs => simpa using hclose
    rw [throughCommentEnd_cons hclose, Option.map_eq_none_iff] at h
    rw [List.cons_append, throughCommentEnd_cons hclose', ih h, Option.map_none]

theorem throughQuote_line_eq_none {escaped : Bool} (h : throughQuote escaped cs = none)
    (ds : List Char) : throughQuote escaped (cs ++ '\n' :: ds) = none := by
  induction cs generalizing escaped with
  | nil => rfl
  | cons c cs ih =>
    rw [throughQuote] at h
    rw [List.cons_append, throughQuote]
    split
    · rfl
    rename_i hline
    rw [if_neg hline] at h
    split
    · rename_i hescaped
      rw [if_pos hescaped, Option.map_eq_none_iff] at h
      rw [ih h, Option.map_none]
    rename_i hescaped
    rw [if_neg hescaped] at h
    split
    · rename_i hquote
      rw [if_pos hquote] at h
      cases h
    · rename_i hquote
      rw [if_neg hquote, Option.map_eq_none_iff] at h
      rw [ih h, Option.map_none]

/-- A comment that is open at the end of the text could go on, unless what follows has no end for
it. -/
theorem slash_line (h : (slash cs).role ≠ .fault .unterminatedComment ∨
    throughCommentEnd ds = none) : EndsAtLine slash cs ds := by
  unfold EndsAtLine
  cases cs with
  | nil => exact ⟨rfl, Nat.le_refl _⟩
  | cons c cs =>
    by_cases hline : c = '/'
    · subst hline
      have hrun := run_le_length (· ≠ '\n') cs
      rw [List.cons_append, slash, slash, run_line rfl]
      exact ⟨rfl, by simp only [List.length_cons]; omega⟩
    by_cases hblock : c = '*'
    · subst hblock
      cases hend : throughCommentEnd cs with
      | none =>
        obtain h | h := h
        · simp [slash, hend] at h
        · rw [List.cons_append, slash, slash, throughCommentEnd_line_eq_none hend h, hend]
          exact ⟨rfl, by simp⟩
      | some n =>
        obtain ⟨hsame, hn⟩ := throughCommentEnd_line hend ('\n' :: ds)
        rw [List.cons_append, slash, slash, hsame, hend]
        exact ⟨rfl, by simp only [List.length_cons]; omega⟩
    · simp [slash, hline, hblock]

/-- A quoted text that is open stays so: the line end stands in it. -/
theorem quote_line : EndsAtLine quote cs ds := by
  unfold EndsAtLine quote
  cases hend : throughQuote false cs with
  | none =>
    rw [throughQuote_line_eq_none hend]
    exact ⟨rfl, Nat.zero_le _⟩
  | some n =>
    obtain ⟨hline, hn⟩ := throughQuote_line hend ('\n' :: ds)
    rw [hline]
    exact ⟨rfl, hn⟩

/-- An end marker is on one line. -/
theorem brace_line : EndsAtLine brace cs ds := by
  have hblanks := run_le_length isInlineBlank cs
  unfold EndsAtLine brace
  dsimp only
  rw [run_line rfl, List.drop_append_of_le_length hblanks, isPrefixOf_line (by decide)]
  refine ⟨rfl, ?_⟩
  split
  · rename_i hmarker
    have hlength := (List.isPrefixOf_iff_prefix.mp hmarker).length_le
    rw [List.length_drop] at hlength
    dsimp only
    omega
  · exact Nat.zero_le _

theorem head?_line {d : Char} (hd : d ≠ '\n') :
    ((cs ++ '\n' :: ds).head? = some d) = (cs.head? = some d) := by
  cases cs with
  | nil => simp [hd.symm]
  | cons c cs => rfl

/-- The path of an include line is closed on that line or not at all. -/
theorem includePath_line (before : Nat) (cs ds : List Char) :
    includePath before (cs ++ '\n' :: ds) = includePath before cs ∧
      (includePath before cs).more ≤ before + cs.length := by
  have hblanks := run_le_length isInlineBlank cs
  have hlength : (cs.drop (run isInlineBlank cs)).length = cs.length - run isInlineBlank cs :=
    List.length_drop
  unfold includePath
  dsimp only
  rw [run_line rfl, List.drop_append_of_le_length hblanks]
  -- neither run goes past the end of the line, so only what stands behind the blanks matters
  generalize cs.drop (run isInlineBlank cs) = behind at hlength ⊢
  cases behind with
  | nil => exact ⟨rfl, by dsimp only; omega⟩
  | cons c path =>
    by_cases hopen : c = '<'
    · subst hopen
      have hinside := run_le_length (fun c => c ≠ '>' && c ≠ '\n') path
      rw [List.length_cons] at hlength
      simp only [List.cons_append]
      rw [run_line rfl, List.drop_append_of_le_length hinside]
      simp only [head?_line (show '>' ≠ '\n' by decide), true_and]
      split
      · rename_i hclose
        have hrest : 0 < (path.drop (run (fun c => c ≠ '>' && c ≠ '\n') path)).length :=
          List.length_pos_iff.mpr fun hnil => by rw [hnil] at hclose; cases hclose
        rw [List.length_drop] at hrest
        dsimp only
        omega
      · dsimp only
        omega
    · simp [hopen]
      omega

theorem hash_line : EndsAtLine hash cs ds := by
  have hblanks := run_le_length isInlineBlank cs
  unfold EndsAtLine hash
  dsimp only
  rw [run_line rfl, List.drop_append_of_le_length hblanks, isPrefixOf_line (by decide)]
  split
  · rename_i hword
    have hlength := (List.isPrefixOf_iff_prefix.mp hword).length_le
    rw [List.length_drop] at hlength
    have hdrop : run isInlineBlank cs + includeWord.length ≤ cs.length := by omega
    rw [List.drop_append_of_le_length hdrop]
    obtain ⟨hsame, hmore⟩ := includePath_line (run isInlineBlank cs + includeWord.length)
      (cs.drop (run isInlineBlank cs + includeWord.length)) ds
    rw [List.length_drop] at hmore
    exact ⟨hsame, by omega⟩
  · refine ⟨rfl, ?_⟩
    split
    · exact Nat.zero_le _
    · exact hblanks

theorem colon_line : EndsAtLine colon cs ds := by
  unfold EndsAtLine colon
  cases cs with
  | nil => exact ⟨rfl, Nat.le_refl _⟩
  | cons c cs =>
    by_cases hc : c = ':'
    · subst hc
      exact ⟨rfl, by simp⟩
    · simp [hc]

/-- Unless a comment is left open, a lexeme does not go on behind the end of a line. -/
theorem ofHead_line (hblank : isBlank c = false)
    (hcomment : (ofHead c cs).role ≠ .fault .unterminatedComment ∨ throughCommentEnd ds = none) :
    EndsAtLine (ofHead c) cs ds := by
  revert hcomment
  unfold EndsAtLine ofHead
  simp only [hblank, Bool.false_eq_true, if_false]
  split
  · exact fun _ => word_line
  split
  · exact fun _ => number_line
  split
  · exact slash_line
  split
  · exact fun _ => quote_line
  split
  · exact fun _ => brace_line
  split
  · exact fun _ => hash_line
  split
  · exact fun _ => colon_line
  · exact fun _ => ⟨rfl, Nat.zero_le _⟩

end Lexeme

/-! ## Scans -/

namespace Scan

variable (s : Shift)

/-- A scan further on, with its fault. -/
def shift (scan : Scan) : Scan := ⟨scan.tokens.map (·.shift s), scan.fault.map (·.shift s)⟩

/-- What is found in a text whose first part has the tokens `before`. -/
def following (before : List Token) (scan : Scan) : Scan := ⟨before ++ scan.tokens, scan.fault⟩

/-- The scanner looks at characters only, so from another place it finds the same, further on. -/
theorem walk_shift (n : Nat) (p : Position) (cs : List Char) :
    walk n (p.shift s) cs = (walk n p cs).shift s := by
  induction cs generalizing n p with
  | nil => rfl
  | cons c cs ih =>
    have hafter : (p.shift s).after c = (p.after c).shift s := by
      simpa using p.afterAll_shift s [c]
    cases n with
    | succ n => rw [walk, walk, hafter, ih]
    | zero =>
      rw [walk, walk, hafter, ih, Position.spanOf_shift]
      split
      · rfl
      · split <;> rfl
      · rfl

/-- A scan and the one of what follows, which is not met behind a fault. -/
def andThen (scan rest : Scan) : Scan :=
  match scan.fault with
  | none => rest.following scan.tokens
  | some _ => scan

theorem andThen_of_none {scan rest : Scan} (h : scan.fault = none) :
    scan.andThen rest = rest.following scan.tokens := by
  rw [andThen, h]

theorem cons_andThen (t : Token) (scan rest : Scan) :
    (scan.cons t).andThen rest = (scan.andThen rest).cons t := by
  obtain ⟨tokens, fault⟩ := scan
  cases fault <;> rfl

/-- Where a scan meets no fault, the first lexeme is none. -/
theorem lexeme_of_fault_eq_none {p : Position} {c : Char} {cs : List Char}
    (h : (walk 0 p (c :: cs)).fault = none) (cause : LexicalFault) :
    (Lexeme.ofHead c cs).role ≠ .fault cause := by
  intro hrole
  rw [walk, hrole] at h
  cases h

/-- The scan of two texts with the end of a line between them, where no comment of the first one
ends in the second one. -/
theorem walk_line {cs ds : List Char} (p : Position)
    (h : (walk 0 p cs).fault = none ∨ Lexeme.throughCommentEnd ds = none) :
    walk 0 p (cs ++ '\n' :: ds) =
      (walk 0 p cs).andThen (walk 0 (p.afterAll (cs ++ ['\n'])) ds) := by
  -- each lexeme takes its first character, so what is left is shorter
  induction hlength : cs.length using Nat.strong_induction_on generalizing p cs with
  | _ length ih =>
    cases cs with
    | nil => exact walk_blank rfl p ds
    | cons c cs =>
      cases hblank : Lexeme.isBlank c with
      | true =>
        rw [walk_blank hblank] at h
        have hrest := ih cs.length (by rw [← hlength]; exact Nat.lt_succ_self _) (p.after c) h rfl
        rw [List.cons_append, walk_blank hblank, walk_blank hblank, hrest]
        rfl
      | false =>
        obtain ⟨hsame, hmore⟩ := Lexeme.ofHead_line hblank
          (h.imp_left fun h => lexeme_of_fault_eq_none h .unterminatedComment)
        have hrest (hopen : (walk (Lexeme.ofHead c cs).more (p.after c) cs).fault = none ∨
            Lexeme.throughCommentEnd ds = none) :
            walk (Lexeme.ofHead c cs).more (p.after c) (cs ++ '\n' :: ds) =
              (walk (Lexeme.ofHead c cs).more (p.after c) cs).andThen
                (walk 0 (p.afterAll (c :: cs ++ ['\n'])) ds) := by
          rw [walk_covered] at hopen
          have hshorter : (cs.drop (Lexeme.ofHead c cs).more).length < length := by
            rw [← hlength, List.length_drop, List.length_cons]
            omega
          have hjoin := ih _ hshorter _ hopen rfl
          rw [← Position.afterAll_append, ← List.append_assoc, List.take_append_drop] at hjoin
          rw [walk_covered, List.take_append_of_le_length hmore,
            List.drop_append_of_le_length hmore, hjoin, walk_covered _ _ cs]
          rfl
        rw [List.cons_append, walk, walk, hsame, List.take_append_of_le_length hmore]
        rw [walk] at h
        revert h
        split
        · exact hrest
        · split
          · exact hrest
          · intro h
            rw [hrest h, cons_andThen]
        · exact fun _ => rfl

end Scan

/-! ## Texts -/

/-- How far on a text stands behind `front` and the end of a line, where `nodes` is the number of
nodes in the tree that `front` is read as. -/
def Shift.behind (front : String) (nodes : Nat) : Shift :=
  ⟨front.utf8ByteSize + 1, front.toList.count '\n' + 1, nodes⟩

/-- The second text starts behind the first and the line end. -/
theorem Position.afterAll_front (front : String) (nodes : Nat) :
    origin.afterAll (front.toList ++ ['\n']) = origin.shift (.behind front nodes) := by
  have hsize : (String.ofList (front.toList ++ ['\n'])).utf8ByteSize = front.utf8ByteSize + 1 := by
    rw [String.ofList_append, String.ofList_toList, String.utf8ByteSize_append]
    rfl
  simp only [afterAll_eq, origin, shift, Shift.behind, hsize, List.count_append, mk.injEq]
  simp [Nat.add_comm]

theorem toList_join (front behind : String) :
    (front ++ "\n" ++ behind).toList = (front.toList ++ ['\n']) ++ behind.toList := by
  simp

/-- The scan of both texts is that of the first, then that of the second further on. -/
theorem Scan.ofText_join {front : String} (behind : String) (nodes : Nat)
    (h : (ofText front).fault = none) :
    ofText (front ++ "\n" ++ behind) =
      ((ofText behind).shift (.behind front nodes)).following (ofText front).tokens := by
  rw [ofText, toList_join, List.append_assoc, List.singleton_append, walk_line _ (.inl h),
    Position.afterAll_front front nodes, walk_shift]
  exact andThen_of_none h

/-- No line behind a text mends a fault in it, unless an open comment ends there. -/
theorem Scan.fault_eq_none_of_join {front behind : String}
    (hbehind : Lexeme.throughCommentEnd behind.toList = none)
    (h : (ofText (front ++ "\n" ++ behind)).fault = none) : (ofText front).fault = none := by
  rw [ofText, toList_join, List.append_assoc, List.singleton_append,
    walk_line _ (.inr hbehind)] at h
  cases hfault : (walk 0 .origin front.toList).fault with
  | none => exact hfault
  | some e =>
    rw [andThen, hfault] at h
    exact absurd (hfault.symm.trans h) (Option.some_ne_none e)

/-- The end of both texts is that of the second, further on. -/
theorem Token.endOf_join (front behind : String) (nodes : Nat) :
    endOf (front ++ "\n" ++ behind) = (endOf behind).shift (.behind front nodes) := by
  simp only [endOf, toList_join, Position.afterAll_append, Position.afterAll_front front nodes,
    Position.afterAll_shift]
  rfl

/-- The tokens of the first text but for its end, then those of the second one. -/
theorem Token.ofText_join {front : String} {ts : List Token} (behind : String) (nodes : Nat)
    (h : Scan.ofText front = ⟨ts, none⟩) :
    ofText (front ++ "\n" ++ behind) =
      match ofText behind with
      | .error e => .error (e.shift (.behind front nodes))
      | .ok us => .ok (ts ++ us.map (·.shift (.behind front nodes))) := by
  rw [ofText, Scan.ofText_join behind nodes (by rw [h]), h, ofText, endOf_join front behind nodes]
  cases Scan.ofText behind with
  | mk us fault =>
    cases fault with
    | none => simp [Scan.following, Scan.shift]
    | some e => rfl

end BindingIdl
