import BindingIdl.Proofs.Grammar.Joining

/-!
# Namespaces that are not closed

Where an accepted file ends in closing braces, each on a line of its own, the same file without them
is refused for one thing alone: the namespace that the first of these braces closed is open.

What is left without the braces is `Grammar.LeavesOpen`: items, the beginning of a namespace, and
inside it either items again or, once more, a namespace that is left open. The parser gets to the
end of the file in the innermost namespace and is stopped there. On the way out, each list of items
is at the end of the file too, so it hands the diagnostic on and neither reports it nor looks for
where to go on (`Grammar.LeavesOpen.stopsAtEnd`).

The main statement is `InterfaceFile.ofText_without_closers`.
-/

open BindingIdl.Parser

namespace BindingIdl

/-! ## Stopping at the end -/

namespace Parser

variable {α β : Type} {c mid : Cursor} {d : Diagnostic}

/-- The parser gets to the end of the file without a report, and is stopped there. -/
def StopsAtEnd (p : Parser α) (c : Cursor) (d : Diagnostic) : Prop :=
  ∃ next : Cursor, next.rest = [] ∧ p c = ⟨.error d, [], next⟩

theorem StopsAtEnd.bind {p : Parser α} (f : α → Parser β) (h : StopsAtEnd p c d) :
    StopsAtEnd (p >>= f) c d := by
  obtain ⟨next, hend, hp⟩ := h
  exact ⟨next, hend, bind_of_error f hp⟩

/-- Something may be read in front of where the parser is stopped. -/
theorem Reads.stopsAtEnd {p : Parser α} {f : α → Parser β} {a : α} (hp : Reads p c a mid)
    (h : StopsAtEnd (f a) mid d) : StopsAtEnd (p >>= f) c d := by
  obtain ⟨next, hend, hf⟩ := h
  exact ⟨next, hend, (hp.bind_eq f).trans hf⟩

end Parser

namespace Grammar

/-! ## Open namespaces -/

/-- A namespace up to its brace. -/
inductive IsOpening : List Token → Token → Option String → Prop where
  | mk {is ns keyword opening override name} : IsOverride is override →
      keyword.kind = .namespaceKeyword → IsNamespaceName ns name → opening.kind = .openBrace →
      IsOpening (is ++ keyword :: ns ++ [opening]) keyword name

/-- Items, and behind them a namespace without its end. The keyword and the name are those of the
innermost one. -/
inductive LeavesOpen (settings : GrammarSettings) (keyword : Token) (name : Option String) :
    NodeId → List Token → Prop where
  | here {n n' m us os ts items inner} : IsItems settings n us items n' →
      IsOpening os keyword name → IsItems settings n' ts inner m →
      LeavesOpen settings keyword name n (us ++ os ++ ts)
  | inside {n n' us os ts items outer outerName} : IsItems settings n us items n' →
      IsOpening os outer outerName → LeavesOpen settings keyword name n' ts →
      LeavesOpen settings keyword name n (us ++ os ++ ts)

variable {settings : GrammarSettings} {keyword stop : Token} {name : Option String} {d : Diagnostic}
  {n n' : NodeId} {os ts us : List Token}

/-- What a namespace can begin with. -/
theorem IsOpening.first (h : IsOpening os keyword name) :
    ∃ t vs, os = t :: vs ∧ (t.kind = .includeLine ∨ t.kind = .namespaceKeyword) := by
  cases h with
  | mk hoverride hkeyword =>
    cases hoverride with
    | absent => exact ⟨_, _, rfl, .inr hkeyword⟩
    | present ht => exact ⟨_, _, rfl, .inl ht⟩

theorem IsOpening.keyword_mem (h : IsOpening os keyword name) :
    keyword ∈ os ∧ keyword.kind = .namespaceKeyword := by
  cases h with
  | mk _ hkeyword => exact ⟨by simp, hkeyword⟩

/-- The keyword of the innermost open namespace is one of the tokens. -/
theorem LeavesOpen.keyword_mem (h : LeavesOpen settings keyword name n ts) :
    keyword ∈ ts ∧ keyword.kind = .namespaceKeyword := by
  induction h with
  | here _ hopening _ =>
    exact ⟨List.mem_append_left _ (List.mem_append_right _ hopening.keyword_mem.1),
      hopening.keyword_mem.2⟩
  | inside _ _ _ ih => exact ⟨List.mem_append_right _ ih.1, ih.2⟩

/-- Another item may stand in front. -/
theorem LeavesOpen.behind {item : Item} (h : LeavesOpen settings keyword name n' ts)
    (hitem : IsItem settings n us item n') : LeavesOpen settings keyword name n (us ++ ts) := by
  cases h with
  | here hitems hopening hinner =>
    rw [← List.append_assoc, ← List.append_assoc]
    exact .here (.cons hitem hitems) hopening hinner
  | inside hitems hopening hinner =>
    rw [← List.append_assoc, ← List.append_assoc]
    exact .inside (.cons hitem hitems) hopening hinner

/-! ## Reading them -/

/-- The body of a namespace leads to the end of the file, and `d` is what to say there: it stops the
body itself, or the body is over and the namespace is open. -/
def EndsInside (body : Parser (List Item)) (keyword : Token) (name : Option String) (c : Cursor)
    (d : Diagnostic) : Prop :=
  StopsAtEnd body c d ∨ (∃ items next, next.rest = [] ∧ Reads body c items next) ∧
    d = .about keyword.span (.unclosedNamespace name)

/-- An open namespace stops at the end, with the error of its body or with its own. -/
theorem IsOpening.stopsAtEnd {body : Parser (List Item)} (h : IsOpening os keyword name)
    (hbody : EndsInside body keyword name ⟨ts, stop, n⟩ d) :
    StopsAtEnd (item settings body) ⟨os ++ ts, stop, n⟩ d := by
  cases h with
  | @mk is ns _ opening override _ hoverride hkeyword hname hopening =>
    have hreads := hoverride.reads
      (show (⟨keyword :: (ns ++ opening :: ts), stop, n⟩ : Cursor).kind ≠ _ by simp [hkeyword])
    obtain ⟨t, rfl, hreads₂, hreads₃⟩ := hname.reads
      (show (⟨opening :: ts, stop, n⟩ : Cursor).kind ≠ _ by simp [hopening])
    simp only [List.append_assoc, List.cons_append, List.nil_append] at hreads hreads₂ ⊢
    refine hreads.stopsAtEnd (Reads.kind.stopsAtEnd ?_)
    rw [Cursor.kind_cons, hkeyword]
    refine StopsAtEnd.bind _ (Reads.take.stopsAtEnd (hreads₂.stopsAtEnd (hreads₃.stopsAtEnd
      ((Reads.expect hopening).stopsAtEnd ?_))))
    obtain hstops | ⟨⟨items, next, hend, hitems⟩, rfl⟩ := hbody
    · exact hstops.bind _
    · refine hitems.stopsAtEnd (Reads.cursor.stopsAtEnd ?_)
      have hatEnd : next.atEnd = true := Cursor.atEnd_of_rest_eq_nil hend
      rw [if_pos hatEnd]
      exact ⟨next, hend, rfl⟩

/-- At the end of the file nothing is recovered from. -/
theorem stopsAtEnd_nextItem {nested : Bool} {body : Parser (List Item)} {c : Cursor}
    (h : StopsAtEnd (item settings body) c d)
    (hk : c.kind = .includeLine ∨ c.kind = .namespaceKeyword) :
    StopsAtEnd (nextItem settings nested body) c d := by
  obtain ⟨next, hend, hitem⟩ := h
  have hattempt : Reads (attempt (item settings body)) c (.error d) next :=
    reads_attempt_iff.mpr hitem
  have hatEnd : next.atEnd = true := Cursor.atEnd_of_rest_eq_nil hend
  refine Reads.kind.stopsAtEnd ?_
  obtain hk | hk := hk
  all_goals
    rw [hk]
    refine hattempt.stopsAtEnd (Reads.cursor.stopsAtEnd ?_)
    rw [if_pos hatEnd]
    exact ⟨next, hend, rfl⟩

/-- Behind items that are read, the list is stopped where the namespace behind them is. -/
theorem IsItems.stopsAtEnd {nested : Bool} {items : List Item} {first : Token}
    {ahead : List Token} (hitems : IsItems settings n us items n')
    (hopening : IsOpening os keyword name) (hopen : Open ⟨us ++ (os ++ ts), stop, n⟩)
    (short : (us ++ (os ++ ts)).length ≤ ahead.length + 1)
    (hbody : EndsInside (itemsWithin settings true ahead) keyword name ⟨ts, stop, n'⟩ d) :
    StopsAtEnd (itemsWithin settings nested (first :: ahead)) ⟨us ++ (os ++ ts), stop, n⟩ d := by
  obtain ⟨t, vs, hfirst, hk⟩ := hopening.first
  have hkind : (⟨os ++ ts, stop, n'⟩ : Cursor).kind = t.kind := by rw [hfirst]; rfl
  have hderived : ReadsDerived settings ahead.length (itemsWithin settings true ahead) :=
    fun h hopen hends short => h.reads_itemsWithin ahead hopen hends short
  have hshrinks := shrinks_itemsWithin settings true ahead
  -- an include line or a keyword names nothing that was closed before
  have follow : ∀ t ∈ us, Unnamed t ⟨os ++ ts, stop, n'⟩ := by
    intro _ _ hident
    rw [hkind] at hident
    obtain hk | hk := hk <;> rw [hk] at hident <;> cases hident
  have hcollect : Parser.collect (nextItem settings nested _) _ = _ :=
    hitems.collect_following hderived hshrinks hopen short follow
  have hstops : StopsAtEnd (nextItem settings nested _) _ _ :=
    stopsAtEnd_nextItem (hopening.stopsAtEnd hbody) (by rwa [hkind])
  obtain ⟨next, hend, hnext⟩ := hstops
  rw [collect_of_error (progresses_nextItem settings nested hshrinks) hnext] at hcollect
  exact ⟨next, hend, bind_of_error _ hcollect⟩

/-- Whatever is left open around it, the innermost namespace is what the parser is stopped for. -/
theorem LeavesOpen.stopsAtEnd (h : LeavesOpen settings keyword name n ts) (nested : Bool)
    (ahead : List Token) (hopen : Open ⟨ts, stop, n⟩) (short : ts.length ≤ ahead.length) :
    StopsAtEnd (itemsWithin settings nested ahead) ⟨ts, stop, n⟩
      (.about keyword.span (.unclosedNamespace name)) := by
  induction h generalizing nested ahead with
  | @here n n' m us os ts items inner hitems hopening hinner =>
    obtain ⟨t, vs, rfl, -⟩ := hopening.first
    rw [List.append_assoc] at hopen short ⊢
    cases ahead with
    | nil => simp at short
    | cons first ahead =>
      have hlength : (ts ++ []).length ≤ ahead.length := by
        simp only [List.length_append, List.length_cons, List.length_nil] at short ⊢
        omega
      have hopen' : Open ⟨ts ++ [], stop, n'⟩ := fun u hu =>
        hopen u (by simpa using Or.inr (Or.inr (Or.inr (by simpa using hu))))
      -- the innermost body is read up to the end of the file, where its brace is missing
      have hreads : Reads (itemsWithin settings true ahead) _ _ _ :=
        hinner.reads_itemsWithin ahead hopen' (.inl rfl) hlength
      rw [List.append_nil] at hreads
      exact hitems.stopsAtEnd hopening hopen short (.inr ⟨⟨inner, _, rfl, hreads⟩, rfl⟩)
  | @inside n n' us os ts items outer outerName hitems hopening _ ih =>
    obtain ⟨t, vs, rfl, -⟩ := hopening.first
    rw [List.append_assoc] at hopen short ⊢
    cases ahead with
    | nil => simp at short
    | cons first ahead =>
      -- what is inside is shorter, so the list that bounds the depth does for it too
      have hlength : ts.length ≤ ahead.length := by
        simp only [List.length_append, List.length_cons] at short ⊢
        omega
      have hopen' : Open ⟨ts, stop, n'⟩ := fun u hu =>
        hopen u (by simpa using Or.inr (Or.inr (Or.inr hu)))
      exact hitems.stopsAtEnd hopening hopen short (.inl (ih true ahead hopen' hlength))

/-! ## Taking the closing braces away -/

section

variable {cs : List Token} {items : List Item}

theorem eq_concat_of_append {α : Type} {as bs cs : List α} {a : α} (h : as ++ [a] = bs ++ cs)
    (hcs : cs ≠ []) : ∃ front, cs = front ++ [a] ∧ as = bs ++ front := by
  obtain rfl | ⟨front, last, rfl⟩ := List.eq_nil_or_concat' cs
  · exact absurd rfl hcs
  rw [← List.append_assoc] at h
  obtain ⟨rfl, hlast⟩ := List.append_inj' h rfl
  exact ⟨front, by rw [hlast], rfl⟩

/-- Braces at the end of items belong to the last one, or to those behind the first one. -/
theorem IsItems.append_eq_cases {m : NodeId} (hitems : IsItems settings m us items n')
    (hcs : ∀ c ∈ cs, c.kind = .closeBrace) {vs : List Token} (h : vs ++ us = ts ++ cs) :
    (∃ ws, ts = vs ++ ws ∧ us = ws ++ cs) ∨ vs = ts ++ cs := by
  obtain hfront | ⟨ws, hvs, hws⟩ := List.append_eq_append_iff.mp h
  · exact .inl hfront
  · refine .inr ?_
    cases hitems with
    | nil => rw [hvs, hws, List.append_nil]
    | cons hitem =>
      obtain ⟨t, us, rfl, ht⟩ := hitem.first
      have hbrace := hcs t (by simp [hws])
      rw [hbrace] at ht
      simp at ht

/-- A namespace that ends in one of several braces ends in the last one, and the others are closed
inside it. -/
theorem IsItem.space_append_cases {head : NamespaceHead} {inner : List Item}
    (h : IsItem settings n (ts ++ cs) (.space head inner) n') (hne : cs ≠ [])
    (hcs : ∀ c ∈ cs, c.kind = .closeBrace) :
    ∃ keyword os ws front closing m, cs = front ++ [closing] ∧ ts = os ++ ws ∧
      IsOpening os keyword head.name ∧ IsItems settings n (ws ++ front) inner m ∧
      head.span = keyword.span.cover closing.span := by
  generalize htokens : ts ++ cs = tokens at h
  cases h with
  | @space _ m is ns us es keyword opening closing override name closeName _ hoverride hkeyword
      hname hopening hinner hclosing =>
    have hlast (vs : List Token) {t : Token} (hvs : es = vs ++ [t]) : t.kind = .closeBrace := by
      rw [hvs, ← List.append_assoc] at htokens
      obtain ⟨front, hfront, -⟩ := eq_concat_of_append htokens.symm hne
      exact hcs t (by simp [hfront])
    -- the block ends with a closing brace, so not with an end marker or a name
    cases hclosing with
    | marker ht => exact absurd (ht.symm.trans (hlast [] rfl)) (by decide)
    | named _ hident => exact absurd (hident.symm.trans (hlast [closing] rfl)) (by decide)
    | brace =>
      obtain ⟨front, rfl, hsame⟩ := eq_concat_of_append htokens.symm hne
      have hopened : IsOpening (is ++ keyword :: ns ++ [opening]) keyword name :=
        .mk hoverride hkeyword hname hopening
      have hsplit : is ++ keyword :: ns ++ [opening] ++ us = ts ++ front := by
        rw [← hsame]
        simp
      obtain ⟨ws, hts, hus⟩ | ⟨ws, hopens, hfront⟩ := List.append_eq_append_iff.mp hsplit
      · exact ⟨keyword, _, ws, front, closing, m, rfl, hts, hopened, hus ▸ hinner, rfl⟩
      · -- the opening brace is not one of those at the end
        have hnil : ws = [] := by
          by_contra hws
          obtain ⟨front', hws', -⟩ := eq_concat_of_append hopens hws
          have hbrace := hcs opening (by simp [hfront, hws'])
          rw [hopening] at hbrace
          cases hbrace
        subst hnil
        rw [List.append_nil] at hopens
        exact ⟨keyword, _, [], front, closing, m, rfl, by rw [hopens, List.append_nil], hopened,
          by rwa [hfront], rfl⟩

/-- A class does not end in a brace, nor does a forward declaration. -/
theorem IsItem.last_ne_closeBrace {item : Item} (h : IsItem settings n (ts ++ cs) item n')
    (hitem : item.heads = []) (hne : cs ≠ []) (hcs : ∀ c ∈ cs, c.kind = .closeBrace) : False := by
  have hlast (vs : List Token) {t : Token} (htokens : vs ++ [t] = ts ++ cs)
      (ht : t.kind = .semicolon) : False := by
    obtain ⟨front, hfront, -⟩ := eq_concat_of_append htokens hne
    have hbrace := hcs t (by simp [hfront])
    rw [ht] at hbrace
    cases hbrace
  generalize htokens : ts ++ cs = tokens at h
  cases h with
  | space => cases hitem
  | definition hclass =>
    cases hclass with
    | @mk _ is us keyword name opening closing semi _ _ _ _ _ _ _ _ _ hsemi =>
      refine hlast (is ++ [keyword, name, opening] ++ us ++ [closing]) ?_ hsemi
      rw [htokens]
      simp
  | forward hforward =>
    cases hforward with
    | @mk keyword name semi _ _ _ hsemi => exact hlast [keyword, name] htokens.symm hsemi

/-- Without the braces at its end, a file leaves open the namespace that the first of them
closed. -/
theorem IsItems.leavesOpen {closer : Token} (h : IsItems settings n (ts ++ cs) items n')
    (hcs : ∀ c ∈ cs, c.kind = .closeBrace) (hfirst : cs.head? = some closer) :
    ∃ keyword, ∃ head ∈ Item.allHeads items, LeavesOpen settings keyword head.name n ts ∧
      head.span = keyword.span.cover closer.span := by
  have hne : cs ≠ [] := by rintro rfl; cases hfirst
  induction items using Item.induction generalizing n n' ts cs with
  | nil =>
    generalize htokens : ts ++ cs = tokens at h
    cases h
    exact absurd (List.append_eq_nil_iff.mp htokens).2 hne
  | space head inner rest ih ihrest =>
    generalize htokens : ts ++ cs = tokens at h
    cases h with
    | @cons _ m _ vs us _ _ hitem hitems =>
      obtain ⟨ws, rfl, rfl⟩ | rfl := hitems.append_eq_cases hcs htokens.symm
      · obtain ⟨keyword, head', hmem, hopen, hspan⟩ := ihrest hitems hcs hfirst hne
        exact ⟨keyword, head', List.mem_append_right _ hmem, hopen.behind hitem, hspan⟩
      · obtain ⟨keyword, os, ws, front, closing, m', rfl, rfl, hopening, hinner, hspan⟩ :=
          hitem.space_append_cases hne hcs
        -- if this block has the only brace it is the open one, otherwise the open one is inside it
        cases front with
        | nil =>
          obtain rfl : closing = closer := Option.some.inj hfirst
          rw [List.append_nil] at hinner
          exact ⟨keyword, head, List.mem_append_left _ List.mem_cons_self,
            .here .nil hopening hinner, hspan⟩
        | cons c front =>
          obtain ⟨keyword', head', hmem, hopen, hspan'⟩ := ih hinner
            (fun t ht => hcs t (List.mem_append_left _ ht)) hfirst (List.cons_ne_nil _ _)
          exact ⟨keyword', head', List.mem_append_left _ (List.mem_cons_of_mem _ hmem),
            .inside .nil hopening hopen, hspan'⟩
  | definition decl rest ih =>
    generalize htokens : ts ++ cs = tokens at h
    cases h with
    | @cons _ m _ vs us _ _ hitem hitems =>
      obtain ⟨ws, rfl, rfl⟩ | rfl := hitems.append_eq_cases hcs htokens.symm
      · obtain ⟨keyword, head', hmem, hopen, hspan⟩ := ih hitems hcs hfirst hne
        exact ⟨keyword, head', hmem, hopen.behind hitem, hspan⟩
      · exact (hitem.last_ne_closeBrace rfl hne hcs).elim
  | forward decl rest ih =>
    generalize htokens : ts ++ cs = tokens at h
    cases h with
    | @cons _ m _ vs us _ _ hitem hitems =>
      obtain ⟨ws, rfl, rfl⟩ | rfl := hitems.append_eq_cases hcs htokens.symm
      · obtain ⟨keyword, head', hmem, hopen, hspan⟩ := ih hitems hcs hfirst hne
        exact ⟨keyword, head', hmem, hopen.behind hitem, hspan⟩
      · exact (hitem.last_ne_closeBrace rfl hne hcs).elim

end

/-- A file whose tokens leave a namespace open is refused for the innermost one alone. -/
theorem LeavesOpen.ofTokens (h : LeavesOpen settings keyword name 0 ts) (size : Nat)
    (hts : ∀ t ∈ ts, t.kind ≠ .endOfFile) (hend : stop.kind = .endOfFile) :
    InterfaceFile.ofTokens settings size (ts ++ [stop]) =
      .error [.about keyword.span (.unclosedNamespace name)] := by
  have hopen : Open ⟨ts, stop, 0⟩ := hts
  obtain ⟨next, -, hstops⟩ := h.stopsAtEnd false ts hopen (Nat.le_refl _)
  have hreading := InterfaceFile.reading_upToEnd settings size (ts ++ [stop])
  rw [InterfaceFile.beginning_append size hts hend, hstops] at hreading
  have herrors : (InterfaceFile.reading settings size (ts ++ [stop])).errors =
      [.about keyword.span (.unclosedNamespace name)] := by
    rw [← Parsed.errors_upToEnd, ← hreading]
    rfl
  obtain ⟨items, -, hnone, -⟩ | ⟨-, herror⟩ :=
    InterfaceFile.ofTokens_cases settings size (ts ++ [stop])
  · rw [herrors] at hnone
    cases hnone
  · rw [herror, herrors]

end Grammar

/-! ## Texts -/

/-- Lines that hold one closing brace each. -/
def closingLines : Nat → String
  | 0 => ""
  | count + 1 => "\x7d\n" ++ closingLines count

theorem toList_closingLines_succ (count : Nat) :
    (closingLines (count + 1)).toList = '\x7d' :: '\n' :: (closingLines count).toList := by
  simp [closingLines]

theorem throughCommentEnd_closingLines (count : Nat) :
    Lexeme.throughCommentEnd (closingLines count).toList = none := by
  induction count with
  | zero => rfl
  | succ count ih =>
    rw [toList_closingLines_succ, Lexeme.throughCommentEnd_cons (by simp),
      Lexeme.throughCommentEnd_cons (by simp), ih, Option.map_none, Option.map_none]

/-- Such lines are cut into their braces. -/
theorem Scan.walk_closingLines (p : Position) (count : Nat) :
    ∃ bs, walk 0 p (closingLines count).toList = ⟨bs, none⟩ ∧ (∀ b ∈ bs, b.kind = .closeBrace) ∧
      (1 ≤ count → ∃ b bs', bs = b :: bs' ∧ b.span = p.spanOf ['\x7d']) := by
  induction count generalizing p with
  | zero => exact ⟨[], rfl, by simp, by simp⟩
  | succ count ih =>
    obtain ⟨bs, hwalk, hbraces, -⟩ := ih ((p.after '\x7d').after '\n')
    have hbrace : walk 0 p ['\x7d'] =
        ⟨[⟨.closeBrace, "\x7d", p.spanOf ['\x7d']⟩], none⟩ := rfl
    have hline : walk 0 p (['\x7d'] ++ '\n' :: (closingLines count).toList) = _ :=
      walk_line p (.inl rfl)
    refine ⟨⟨.closeBrace, "\x7d", p.spanOf ['\x7d']⟩ :: bs, ?_, ?_, fun _ => ⟨_, _, rfl, rfl⟩⟩
    · rw [toList_closingLines_succ]
      refine hline.trans ?_
      rw [hbrace, andThen_of_none rfl]
      simp only [List.singleton_append, Position.afterAll_cons, Position.afterAll_nil, hwalk]
      rfl
    · exact List.forall_mem_cons.mpr ⟨rfl, hbraces⟩

/-- Closing lines behind a text add their braces to its tokens, and mend no fault in it. -/
theorem Token.of_ofText_closingLines {text : String} {count : Nat} {us : List Token}
    (hcount : 1 ≤ count) (h : ofText (text ++ "\n" ++ closingLines count) =
      .ok (us ++ [endOf (text ++ "\n" ++ closingLines count)])) :
    ∃ ts brace braces, us = ts ++ brace :: braces ∧ ofText text = .ok (ts ++ [endOf text]) ∧
      (∀ b ∈ brace :: braces, b.kind = .closeBrace) ∧
      brace.span.start = text.utf8ByteSize + 1 ∧ brace.span.stop = text.utf8ByteSize + 2 := by
  obtain ⟨_, hscan, -⟩ := ofText_eq_ok_iff.mp h
  have hfault : (Scan.ofText text).fault = none :=
    Scan.fault_eq_none_of_join (throughCommentEnd_closingLines count) (by rw [hscan])
  have hfront : Scan.ofText text = ⟨(Scan.ofText text).tokens, none⟩ := by rw [← hfault]
  obtain ⟨bs, hbs, hbraces, hfirst⟩ := Scan.walk_closingLines .origin count
  obtain ⟨b, bs, rfl, hspan⟩ := hfirst hcount
  have hlines : ofText (closingLines count) = .ok (b :: bs ++ [endOf (closingLines count)]) :=
    ofText_eq_ok_iff.mpr ⟨b :: bs, hbs, rfl⟩
  have hjoin := ofText_join (closingLines count) 0 hfront
  rw [hlines, h, endOf_join _ _ 0] at hjoin
  simp only [List.map_append, List.map_cons, List.map_nil, ← List.append_assoc] at hjoin
  have hshifted : ∀ b' ∈ (b :: bs).map (·.shift (.behind text 0)), b'.kind = .closeBrace :=
    List.forall_mem_map.mpr hbraces
  rw [List.map_cons] at hshifted
  have hsize : '\x7d'.utf8Size = 1 := rfl
  have hbrace : (b.shift (.behind text 0)).span.start = text.utf8ByteSize + 1 ∧
      (b.shift (.behind text 0)).span.stop = text.utf8ByteSize + 2 := by
    rw [span_shift, hspan]
    simp only [Span.shift, Shift.behind, Position.spanOf, Position.afterAll_cons,
      Position.afterAll_nil, Position.after, Position.origin, hsize]
    omega
  exact ⟨_, b.shift (.behind text 0), bs.map (·.shift (.behind text 0)),
    List.append_cancel_right (Except.ok.inj hjoin), ofText_eq_ok_iff.mpr ⟨_, hfront, rfl⟩,
    hshifted, hbrace⟩

namespace InterfaceFile

open Grammar

/-- Where a text is accepted with closing braces behind it, the text alone is refused for one thing:
the namespace that the first of them closes is open. -/
theorem ofText_without_closers {settings : GrammarSettings} {text : String} {count : Nat}
    {file : InterfaceFile} (hcount : 1 ≤ count)
    (h : ofText settings (text ++ "\n" ++ closingLines count) = .ok file) :
    ∃ head ∈ file.heads, head.span.stop = text.utf8ByteSize + 2 ∧
      ∃ keyword ∈ (Scan.ofText text).tokens, keyword.kind = .namespaceKeyword ∧
        keyword.span.start = head.span.start ∧
        ∃ d, ofText settings text = .error [d] ∧ d.cause = .unclosedNamespace head.name ∧
          d.cause.symbol = some (head.name.getD "<anonymous>") ∧ d.line = keyword.span.line ∧
          d.labels = [("opened here", keyword.span.extent)] := by
  obtain ⟨us, htokens, hitems⟩ := items_of_ofText h
  have hplaced := Token.placed_of_ofText htokens
  obtain ⟨ts, brace, braces, rfl, hfront, hbraces, hstart, hstop⟩ :=
    Token.of_ofText_closingLines hcount htokens
  obtain ⟨keyword, head, hmem, hopen, hspan⟩ := hitems.leavesOpen hbraces rfl
  obtain ⟨hkeyword, hkind⟩ := hopen.keyword_mem
  have hscan : (Scan.ofText text).tokens = ts := by
    obtain ⟨_, hscan, hsame⟩ := Token.ofText_eq_ok_iff.mp hfront
    rw [hscan, List.append_cancel_right hsame]
  -- the keyword stands before the brace
  obtain ⟨st, hst, -⟩ :=
    hplaced.stretch keyword (List.mem_append_left _ (List.mem_append_left _ hkeyword))
  have hle : keyword.span.start ≤ keyword.span.stop := hst ▸ st.start_le_stop
  have hbefore : keyword.span.stop ≤ brace.span.start :=
    (List.pairwise_append.mp (List.pairwise_append.mp hplaced.ordered).1).2.2 _ hkeyword _
      List.mem_cons_self
  refine ⟨head, hmem, ?_, keyword, by rwa [hscan], hkind, ?_,
    .about keyword.span (.unclosedNamespace head.name), ?_, rfl, rfl, rfl, rfl⟩
  · rw [hspan, ← hstop]
    exact max_eq_right (by omega)
  · rw [hspan]
    exact (min_eq_left (by omega)).symm
  · rw [ofText_eq, hfront]
    exact hopen.ofTokens _ (fun t ht => Scan.kind_ne_endOfFile (by rwa [hscan])) rfl

/-! Two braces are missing; the first one to be added closes the anonymous namespace. -/

/-- A forward declaration in an open namespace, and behind it another one, without a name. -/
def openText : String := "namespace a \x7b\nclass B;\nnamespace \x7b"

theorem openText_without_closers :
    ∃ file, ofText default (openText ++ "\n" ++ closingLines 2) = .ok file ∧
      ∃ head ∈ file.heads, head.span.stop = openText.utf8ByteSize + 2 ∧
        ∃ keyword ∈ (Scan.ofText openText).tokens, keyword.kind = .namespaceKeyword ∧
          keyword.span.start = head.span.start ∧
          ∃ d, ofText default openText = .error [d] ∧ d.cause = .unclosedNamespace head.name ∧
            d.cause.symbol = some (head.name.getD "<anonymous>") ∧ d.line = keyword.span.line ∧
            d.labels = [("opened here", keyword.span.extent)] := by
  have haccepted :
      (ofText default (openText ++ "\n" ++ closingLines 2)).toOption.isSome = true := by
    decide +kernel
  obtain ⟨file, hfile⟩ := Option.isSome_iff_exists.mp haccepted
  have hok := Except.eq_ok_of_toOption hfile
  exact ⟨file, hok, ofText_without_closers (Nat.le_succ 1) hok⟩

end InterfaceFile

end BindingIdl
