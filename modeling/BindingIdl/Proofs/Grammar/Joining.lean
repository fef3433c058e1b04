import BindingIdl.Proofs.Grammar.Completeness
import BindingIdl.Proofs.Grammar.Numbering
import BindingIdl.Proofs.Grammar.Progress
import BindingIdl.Proofs.Token.Joining
import BindingIdl.Proofs.Diagnostic.Location

/-!
# A file behind an accepted one

What stands behind an accepted file is read as if it stood alone, further on. The items of the
first file are read one by one, whatever follows them (`Grammar.IsItems.collect_following`), and
nothing is left open: what follows could only be taken for a part of the last item if it were the
name of a namespace closed on the same line, and it is on a later one. From there the run is that
of the second file alone, moved on by the view of `Parser.matches_itemsWithin`.

The main statement is `InterfaceFile.ofText_behind_line`.
-/

open BindingIdl.Parser

namespace BindingIdl

/-! ## Items of an accepted file -/

namespace Grammar

variable {settings : GrammarSettings} {n n' : NodeId} {stop : Token} {ts rest : List Token}

/-- Items that are derived are read, and the repetition goes on behind them. -/
theorem IsItems.collect_following {nested : Bool} {k : Nat} {body : Parser (List Item)}
    (hbody : ReadsDerived settings k body) (hshrinks : Shrinks body) {items : List Item}
    (h : IsItems settings n ts items n') (hopen : Open ⟨ts ++ rest, stop, n⟩)
    (short : (ts ++ rest).length ≤ k + 1) (follow : ∀ t ∈ ts, Unnamed t ⟨rest, stop, n'⟩) :
    collect (nextItem settings nested body) ⟨ts ++ rest, stop, n⟩ =
      (collect (nextItem settings nested body) ⟨rest, stop, n'⟩).following (items.map some) [] := by
  have hprogress := progresses_nextItem settings nested hshrinks
  induction items generalizing n ts with
  | nil =>
    cases h
    rw [List.map_nil, Parsed.following_nil]
    rfl
  | cons read items ih =>
    cases h with
    | @cons _ m _ ts us _ _ hitem hitems =>
      rw [List.append_assoc] at hopen short ⊢
      have taken : Cursor.Ahead ⟨ts ++ (us ++ rest), stop, n⟩ ts ⟨us ++ rest, stop, m⟩ := rfl
      have short' : (us ++ rest).length ≤ k + 1 := by
        simp only [List.length_append] at short ⊢
        omega
      -- behind an item comes another item or what follows: neither is a name
      have follow' : ∀ t ∈ ts, Unnamed t ⟨us ++ rest, stop, m⟩ := by
        intro t ht
        cases hitems with
        | nil => exact follow t (List.mem_append_left _ ht)
        | cons hnext =>
          obtain ⟨u, us, rfl, hu⟩ := hnext.first
          intro hk
          rw [List.append_assoc, List.cons_append, Cursor.kind_cons] at hk
          rw [hk] at hu
          simp at hu
      have hread : Reads (nextItem settings nested body) _ _ _ :=
        hitem.reads_nextItem hbody hopen short follow'
      rw [collect_of_some hprogress hread, ih hitems (hopen.of_ahead taken) short' fun t ht =>
        follow t (List.mem_append_right _ ht), Parsed.following_following]
      rfl

/-- Behind derived items the loop goes on with what follows, and answers them in front of it. -/
theorem IsItems.itemsWithin_following {items : List Item} (h : IsItems settings n ts items n')
    (hopen : Open ⟨ts ++ rest, stop, n⟩) (follow : ∀ t ∈ ts, Unnamed t ⟨rest, stop, n'⟩)
    (first : Token) {ahead : List Token} (short : (ts ++ rest).length ≤ ahead.length + 1) :
    itemsWithin settings false (first :: ahead) ⟨ts ++ rest, stop, n⟩ =
      (itemsWithin settings false (first :: ahead) ⟨rest, stop, n'⟩).following items [] := by
  have hbody : ReadsDerived settings ahead.length (itemsWithin settings true ahead) :=
    fun h hopen hends short => h.reads_itemsWithin ahead hopen hends short
  have hcollect : collect (nextItem settings false (itemsWithin settings true ahead)) _ = _ :=
    h.collect_following hbody (shrinks_itemsWithin settings true ahead) hopen short follow
  rw [itemsWithin]
  rcases hrest : collect (nextItem settings false (itemsWithin settings true ahead))
    ⟨rest, stop, n'⟩ with ⟨outcome, reported, next⟩
  rw [hrest] at hcollect
  cases outcome with
  | error d => rw [bind_of_error _ hcollect, bind_of_error _ hrest]; rfl
  | ok read =>
    rw [bind_of_ok _ hcollect, bind_of_ok _ hrest]
    simp [pure_apply, Parsed.following, Except.map]

end Grammar

namespace InterfaceFile

open Grammar

variable {settings : GrammarSettings} {s : Shift} {ts us : List Token} {stop : Token}

/-- Up to the end, the run over both files is the run over the second one, further on, behind the
items of the first. -/
theorem reading_join {items : List Item} (size size' : Nat)
    (hitems : IsItems settings 0 ts items s.ids) (hts : ∀ t ∈ ts, t.kind ≠ .endOfFile)
    (hus : ∀ u ∈ us, u.kind ≠ .endOfFile) (hstop : stop.kind = .endOfFile)
    (hlines : ∀ t ∈ ts, ∀ u ∈ us, u.span.line + s.lines ≠ t.span.line) :
    (reading settings size (ts ++ (us ++ [stop]).map (·.shift s))).upToEnd =
      ((View.further settings s).parsed (Item.shiftAll s)
        (reading settings size' (us ++ [stop])).upToEnd).following items [] := by
  have hboth : ∀ t ∈ ts ++ us.map (·.shift s), t.kind ≠ .endOfFile := by
    intro t ht
    obtain ht | ht := List.mem_append.mp ht
    · exact hts t ht
    · obtain ⟨u, hu, rfl⟩ := List.mem_map.mp ht
      exact hus u hu
  have hbeginning : (beginning size (ts ++ (us ++ [stop]).map (·.shift s))).upToEnd =
      ⟨ts ++ us.map (·.shift s), stop.shift s, 0⟩ := by
    rw [List.map_append, ← List.append_assoc]
    exact beginning_append size hboth hstop
  have hshift : (⟨us, stop, 0⟩ : Cursor).shift s = ⟨us.map (·.shift s), stop.shift s, s.ids⟩ := by
    simp [Cursor.shift]
  -- a name on a later line names nothing that was closed before
  have follow : ∀ t ∈ ts, Unnamed t ⟨us.map (·.shift s), stop.shift s, s.ids⟩ := by
    intro t ht hk
    cases us with
    | nil => cases hk
    | cons u us => exact hlines t ht u List.mem_cons_self
  have hmatches := matches_itemsWithin (v := .further settings s) (c := ⟨us, stop, 0⟩) false us
    (stop :: (ts ++ us.map (·.shift s))) (Nat.le_refl _) (by simp; omega)
  have hanswer := hmatches.answer
  rw [show (View.further settings s).shift = s from rfl, hshift] at hanswer
  have hbound : itemsWithin settings false (ts ++ us.map (·.shift s))
      ⟨ts ++ us.map (·.shift s), stop.shift s, 0⟩ =
      itemsWithin settings false (stop :: (ts ++ us.map (·.shift s)))
        ⟨ts ++ us.map (·.shift s), stop.shift s, 0⟩ :=
    itemsWithin_congr settings false (Nat.le_refl _) (Nat.le_succ _)
  rw [← reading_upToEnd, hbeginning, hbound,
    hitems.itemsWithin_following hboth follow stop (Nat.le_succ _), ← reading_upToEnd,
    beginning_append size' hus hstop]
  exact congrArg _ hanswer

theorem ofTokens_join {items : List Item} (size size' : Nat)
    (hitems : IsItems settings 0 ts items s.ids) (hts : ∀ t ∈ ts, t.kind ≠ .endOfFile)
    (hus : ∀ u ∈ us, u.kind ≠ .endOfFile) (hstop : stop.kind = .endOfFile)
    (hlines : ∀ t ∈ ts, ∀ u ∈ us, u.span.line + s.lines ≠ t.span.line) :
    ofTokens settings size (ts ++ (us ++ [stop]).map (·.shift s)) =
      match ofTokens settings size' (us ++ [stop]) with
      | .ok file => .ok ⟨items ++ (file.shift s).items⟩
      | .error ds => .error (ds.map (·.shift s)) := by
  have hjoin := reading_join size size' hitems hts hus hstop hlines
  -- the errors come from the second part only
  have herrors : (reading settings size (ts ++ (us ++ [stop]).map (·.shift s))).errors =
      (reading settings size' (us ++ [stop])).errors.map (·.shift s) := by
    rw [← Parsed.errors_upToEnd, hjoin, Parsed.errors_following, List.nil_append,
      View.errors_parsed fun _ _ => rfl, Parsed.errors_upToEnd]
    simp [View.further]
  -- so both files are read, or neither is
  obtain ⟨items', houtcome, hnone, hok⟩ | ⟨hsome, herror⟩ :=
    ofTokens_cases settings size' (us ++ [stop])
  · have hitems' : (reading settings size (ts ++ (us ++ [stop]).map (·.shift s))).outcome =
        .ok (items ++ Item.shiftAll s items') := by
      refine (congrArg (·.outcome) hjoin).trans ?_
      simp only [Parsed.following, View.parsed, Parsed.upToEnd, houtcome]
      rfl
    rw [hok]
    obtain ⟨items'', houtcome', -, hok'⟩ | ⟨hne, -⟩ :=
      ofTokens_cases settings size (ts ++ (us ++ [stop]).map (·.shift s))
    · rw [hitems'] at houtcome'
      cases houtcome'
      exact hok'
    · rw [herrors, hnone] at hne
      exact absurd rfl hne
  · rw [herror]
    obtain ⟨-, -, hnone, -⟩ | ⟨-, herror'⟩ :=
      ofTokens_cases settings size (ts ++ (us ++ [stop]).map (·.shift s))
    · rw [herrors, List.map_eq_nil_iff] at hnone
      exact absurd hnone hsome
    · rw [herror', herrors]

end InterfaceFile

/-! ## Texts -/

/-- A scanning error is reported where it is found, so it moves with its text. -/
theorem LexicalError.diagnostic_shift (e : LexicalError) (s : Shift) :
    (e.shift s).diagnostic = e.diagnostic.shift s := by
  obtain ⟨cause, text, span⟩ := e
  cases cause <;> exact (Diagnostic.about_shift s rfl).symm

/-- Lines are counted from one. -/
theorem Token.Placed.line_pos {text : String} {ts : List Token} (h : Placed text ts) :
    ∀ t ∈ ts, 1 ≤ t.span.line := by
  intro t ht
  obtain ⟨s, hspan, -⟩ := h.stretch t ht
  rw [← hspan]
  exact Nat.le_add_right 1 _

/-- No token is on a line behind the last one. -/
theorem Token.Placed.line_le {text : String} {ts : List Token} (h : Placed text ts) :
    ∀ t ∈ ts, t.span.line ≤ text.toList.count '\n' + 1 := by
  intro t ht
  obtain ⟨s, hspan, -⟩ := h.stretch t ht
  have hcount := s.before_prefix.sublist.count_le '\n'
  have hline : t.span.line = 1 + s.before.toList.count '\n' := by
    rw [← hspan]
    rfl
  omega

namespace InterfaceFile

open Grammar

/-- The tokens of an accepted text are a derivation of its file, in which the ids are used up to the
number of nodes. -/
theorem items_of_ofText {settings : GrammarSettings} {text : String} {file : InterfaceFile}
    (h : ofText settings text = .ok file) :
    ∃ ts, Token.ofText text = .ok (ts ++ [Token.endOf text]) ∧
      IsItems settings 0 ts file.items file.nodes.length := by
  rw [ofText_eq] at h
  cases htokens : Token.ofText text with
  | error e =>
    rw [htokens] at h
    cases h
  | ok tokens =>
    rw [htokens] at h
    obtain ⟨ts, -, rfl⟩ := Token.ofText_eq_ok_iff.mp htokens
    obtain ⟨n, hitems⟩ := isFile_of_ofTokens h
    obtain rfl : n = file.nodes.length := hitems.numbers.next.trans (Nat.zero_add _)
    rw [Token.takeWhile_of_ofText htokens] at hitems
    exact ⟨ts, rfl, hitems⟩

section

variable {settings : GrammarSettings} {front : String} {file : InterfaceFile}

/-- What can be cut into tokens is read behind an accepted text as it is read alone. -/
theorem ofText_join (h : ofText settings front = .ok file) {behind : String} {tokens : List Token}
    (hbehind : Token.ofText behind = .ok tokens) :
    ofText settings (front ++ "\n" ++ behind) =
      match ofText settings behind with
      | .ok file' =>
        .ok ⟨file.items ++ (file'.shift (.behind front file.nodes.length)).items⟩
      | .error ds => .error (ds.map (·.shift (.behind front file.nodes.length))) := by
  obtain ⟨ts, htokens, hitems⟩ := items_of_ofText h
  have hplaced := Token.placed_of_ofText htokens
  have hplaced' := Token.placed_of_ofText hbehind
  obtain ⟨_, hscan, hsame⟩ := Token.ofText_eq_ok_iff.mp htokens
  obtain rfl := List.append_cancel_right hsame
  obtain ⟨us, hscan', rfl⟩ := Token.ofText_eq_ok_iff.mp hbehind
  have hts : ∀ t ∈ ts, t.kind ≠ .endOfFile := fun t ht =>
    Scan.kind_ne_endOfFile (by rw [hscan]; exact ht)
  have hus : ∀ u ∈ us, u.kind ≠ .endOfFile := fun u hu =>
    Scan.kind_ne_endOfFile (by rw [hscan']; exact hu)
  rw [ofText_eq, ofText_eq, Token.ofText_join behind file.nodes.length hscan, hbehind]
  refine ofTokens_join _ _ hitems hts hus rfl fun t ht u hu => ?_
  have hline := hplaced.line_le t (List.mem_append_left _ ht)
  have hline' := hplaced'.line_pos u (List.mem_append_left _ hu)
  simp only [Shift.behind]
  omega

/-- What stands behind an accepted text and the end of a line is read as it is alone, further on:
the items of the first text come first, the ids go on where it stopped, and every place is as far on
as the first text is long. -/
theorem ofText_behind_line (h : ofText settings front = .ok file) (behind : String) :
    ofText settings (front ++ "\n" ++ behind) =
      match ofText settings behind with
      | .ok file' =>
        .ok ⟨file.items ++ (file'.shift (.behind front file.nodes.length)).items⟩
      | .error ds => .error (ds.map (·.shift (.behind front file.nodes.length))) := by
  cases hbehind : Token.ofText behind with
  | ok tokens => exact ofText_join h hbehind
  | error e =>
    obtain ⟨ts, htokens, -⟩ := items_of_ofText h
    obtain ⟨us, hscan, -⟩ := Token.ofText_eq_ok_iff.mp htokens
    rw [ofText_eq, ofText_eq, Token.ofText_join behind file.nodes.length hscan, hbehind]
    exact congrArg (fun d => Except.error [d]) (e.diagnostic_shift _)

end

/-- A misnamed class behind a namespace that ends on its third line. -/
theorem misnamed_behind_namespace :
    ∃ file, ofText default "namespace a \x7b\nclass B;\n\x7d" = .ok file ∧ file.nodes = [0, 1] ∧
      ofText default ("namespace a \x7b\nclass B;\n\x7d" ++ "\n" ++ "class c;") =
        .error [⟨.className "c", 4, ⟨31, 1⟩⟩] := by
  have hnodes : (ofText default "namespace a \x7b\nclass B;\n\x7d").toOption.map nodes =
      some [0, 1] := by
    decide +kernel
  have herrors : (match ofText default "class c;" with | .ok _ => [] | .error ds => ds) =
      [⟨.className "c", 1, ⟨6, 1⟩⟩] := by
    decide +kernel
  cases hfile : ofText default "namespace a \x7b\nclass B;\n\x7d" with
  | error ds => rw [hfile] at hnodes; cases hnodes
  | ok file =>
    cases hbehind : ofText default "class c;" with
    | ok file' => rw [hbehind] at herrors; cases herrors
    | error ds =>
      rw [hfile] at hnodes
      rw [hbehind] at herrors
      have hids : file.nodes = [0, 1] := Option.some.inj hnodes
      have hds : ds = [⟨.className "c", 1, ⟨6, 1⟩⟩] := herrors
      refine ⟨file, rfl, hids, ?_⟩
      rw [ofText_behind_line hfile, hbehind, hds, hids]
      rfl

end InterfaceFile

end BindingIdl
