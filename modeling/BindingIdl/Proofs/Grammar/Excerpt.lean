import BindingIdl.Proofs.Grammar.Nesting
import BindingIdl.Proofs.Grammar.Trees
import BindingIdl.Proofs.Printing.Layout
import BindingIdl.Proofs.Token.Excerpt

/-!
# Types cut out of a text

A type is written with neighbouring tokens, and what it says depends on nothing but their words. So
the part of the text that its span covers says the same when it is cut out and set elsewhere. Here
it is set in front of the name of a method, as what the method returns (`TypeExpr.IsReadFrom`).

The main statement is `InterfaceFile.ofText_wellNested`, about all spans of an accepted text.
-/

namespace BindingIdl

namespace Grammar

variable {settings : GrammarSettings} {n n' : NodeId} {ts us : List Token}

/-! ## The words of a type -/

/-- Tokens that are read as the same words, wherever they are. -/
abbrev SameWords (us ts : List Token) : Prop := us.map Token.word = ts.map Token.word

theorem SameWords.singleton {t : Token} (h : SameWords us [t]) :
    ∃ u, us = [u] ∧ u.kind = t.kind ∧ u.text = t.text := by
  obtain ⟨u, rfl, hword⟩ := List.map_eq_singleton_iff.mp h
  exact ⟨u, rfl, congrArg Prod.fst hword, congrArg Prod.snd hword⟩

theorem SameWords.cons {t : Token} (h : SameWords us (t :: ts)) :
    ∃ u vs, us = u :: vs ∧ u.kind = t.kind ∧ u.text = t.text ∧ SameWords vs ts := by
  obtain ⟨u, vs, rfl, hword, hrest⟩ := List.map_eq_cons_iff.mp h
  exact ⟨u, vs, rfl, congrArg Prod.fst hword, congrArg Prod.snd hword, hrest⟩

theorem SameWords.append {vs : List Token} (h : SameWords us (ts ++ vs)) :
    ∃ us₁ us₂, us = us₁ ++ us₂ ∧ SameWords us₁ ts ∧ SameWords us₂ vs := by
  rw [SameWords, List.map_append] at h
  exact List.map_eq_append_iff.mp h

theorem IsName.respelled {name : QualifiedName} (h : IsName ts name) (hwords : SameWords us ts) :
    IsName us name := by
  induction h generalizing us with
  | @bare t ht =>
    obtain ⟨u, rfl, hkind, htext⟩ := hwords.singleton
    rw [← htext]
    exact .bare (hkind.trans ht)
  | @qualified t colons ts name ht hcolons _ ih =>
    obtain ⟨u, _, rfl, hkind, htext, hwords⟩ := hwords.cons
    obtain ⟨colons', us, rfl, hkind', -, hwords⟩ := hwords.cons
    rw [← htext]
    exact .qualified (hkind.trans ht) (hkind'.trans hcolons) (ih hwords)

theorem IsConst.respelled {isConst : Bool} (h : IsConst ts isConst) (hwords : SameWords us ts) :
    IsConst us isConst := by
  cases h with
  | absent =>
    obtain rfl := List.map_eq_nil_iff.mp hwords
    exact .absent
  | present ht =>
    obtain ⟨u, rfl, hkind, -⟩ := hwords.singleton
    exact .present (hkind.trans ht)

/-- That a wrapper is called `shared_ptr` is a matter of its word as well. -/
theorem IsTypeHead.respelled {name : QualifiedName} {wrapper : Option QualifiedName}
    (h : IsTypeHead ts name wrapper) (hwords : SameWords us ts) : IsTypeHead us name wrapper := by
  cases h with
  | plain hname => exact .plain (hname.respelled hwords)
  | shared hwrapper hpointer hless hname hgreater =>
    obtain ⟨_, _, rfl, hfront, hclose⟩ := hwords.append
    obtain ⟨outer, _, rfl, houter, hinside⟩ := SameWords.append hfront
    obtain ⟨less, inner, rfl, hkind, -, hinner⟩ := hinside.cons
    obtain ⟨greater, rfl, hkind', -⟩ := hclose.singleton
    exact .shared (hwrapper.respelled houter) hpointer (hkind.trans hless) (hname.respelled hinner)
      (hkind'.trans hgreater)

theorem IsIndirection.respelled {i : Indirection} (h : IsIndirection ts i)
    (hwords : SameWords us ts) : IsIndirection us i := by
  cases h with
  | value =>
    obtain rfl := List.map_eq_nil_iff.mp hwords
    exact .value
  | reference ht =>
    obtain ⟨u, rfl, hkind, -⟩ := hwords.singleton
    exact .reference (hkind.trans ht)
  | pointer ht =>
    obtain ⟨u, rfl, hkind, -⟩ := hwords.singleton
    exact .pointer (hkind.trans ht)

/-- The same words are the same type, in another place. -/
theorem IsType.respelled {type : TypeExpr} (h : IsType n ts type n') (hwords : SameWords us ts)
    (m : NodeId) : IsType m us { type with id := m, span := spanOf us } (m + 1) := by
  cases h with
  | mk hconst hhead hmark =>
    obtain ⟨_, ms, rfl, hfront, hms⟩ := SameWords.append hwords
    obtain ⟨cs, hs, rfl, hcs, hhs⟩ := SameWords.append hfront
    exact .mk (hconst.respelled hcs) (hhead.respelled hhs) (hmark.respelled hms)

/-! ## The kinds of its tokens -/

theorem IsName.isCompact {name : QualifiedName} (h : IsName ts name) :
    ∀ t ∈ ts, t.kind.isCompact = true := by
  induction h with
  | bare ht => simp [ht, TokenKind.isCompact]
  | qualified ht hcolons _ ih =>
    rw [List.forall_mem_cons, List.forall_mem_cons, ht, hcolons]
    exact ⟨rfl, rfl, ih⟩

/-- A type is made of words and of symbols that end by themselves, so it can be cut out. -/
theorem IsType.isCompact {type : TypeExpr} (h : IsType n ts type n') :
    ∀ t ∈ ts, t.kind.isCompact = true := by
  cases h with
  | mk hconst hhead hmark =>
    refine List.forall_mem_append.mpr ⟨List.forall_mem_append.mpr ⟨?_, ?_⟩, ?_⟩
    · cases hconst with
      | absent => simp
      | present ht => simp [ht, TokenKind.isCompact]
    · cases hhead with
      | plain hname => exact hname.isCompact
      | shared hwrapper _ hless hname hgreater =>
        refine List.forall_mem_append.mpr ⟨List.forall_mem_append.mpr ⟨hwrapper.isCompact, ?_⟩, ?_⟩
        · rw [List.forall_mem_cons, hless]
          exact ⟨rfl, hname.isCompact⟩
        · simp [hgreater, TokenKind.isCompact]
    · cases hmark with
      | value => simp
      | reference ht => simp [ht, TokenKind.isCompact]
      | pointer ht => simp [ht, TokenKind.isCompact]

/-! ## Where types are written -/

/-- Neighbours among the tokens are what the type is written with. -/
def Writes (ts : List Token) (type : TypeExpr) : Prop :=
  ∃ us n n', us <:+: ts ∧ IsType n us type n'

theorem IsType.writes {type : TypeExpr} (h : IsType n ts type n') : Writes ts type :=
  ⟨ts, n, n', List.infix_rfl, h⟩

/-- What is written in a part is written in the whole. -/
theorem Writes.mono {type : TypeExpr} (h : Writes us type) (hsub : us <:+: ts) :
    Writes ts type := by
  obtain ⟨vs, n, n', hinfix, htype⟩ := h
  exact ⟨vs, n, n', hinfix.trans hsub, htype⟩

theorem IsParameter.writes {param : ParameterDecl} (h : IsParameter n ts param n') :
    Writes ts param.type := by
  cases h with
  | mk htype => exact htype.writes.mono (List.prefix_append _ _).isInfix

theorem IsParameterList.writes {params : List ParameterDecl}
    (h : IsParameterList n ts params n') : ∀ param ∈ params, Writes ts param.type := by
  induction h with
  | last hparam => simpa using hparam.writes
  | trailing hparam => simpa using hparam.writes.mono (List.prefix_append _ _).isInfix
  | more hparam _ _ ih =>
    refine List.forall_mem_cons.mpr ⟨hparam.writes.mono (List.prefix_append _ _).isInfix, ?_⟩
    exact fun param hmem => (ih param hmem).mono
      ((List.suffix_cons _ _).trans (List.suffix_append _ _)).isInfix

theorem IsParameters.writes {params : List ParameterDecl} (h : IsParameters n ts params n') :
    ∀ param ∈ params, Writes ts param.type := by
  cases h with
  | none => simp
  | @some _ us opening closing _ _ hlist =>
    exact fun param hmem => (hlist.writes param hmem).mono ⟨[opening], [closing], rfl⟩

/-- Each type of a signature is written with neighbours among the tokens of the member. -/
theorem IsMember.writes {owner : String} {read : ReadMember} (h : IsMember owner n ts read n') :
    ∀ type ∈ read.decl.types, Writes ts type := by
  cases h with
  | @constructor _ ps name semi _ _ _ hparams =>
    refine List.forall_mem_map.mpr fun param hmem => ?_
    exact (hparams.writes param hmem).mono ⟨[name], [semi], rfl⟩
  | @method _ _ us ps cs name semi _ _ _ hreturns _ _ hparams =>
    refine List.forall_mem_cons.mpr ⟨hreturns.writes.mono ⟨[], name :: ps ++ cs ++ [semi], by simp⟩,
      List.forall_mem_map.mpr fun param hmem => ?_⟩
    exact (hparams.writes param hmem).mono ⟨us ++ [name], cs ++ [semi], by simp⟩
  | @staticMethod _ _ us ps mark name semi _ _ _ hreturns _ _ hparams =>
    refine List.forall_mem_cons.mpr ⟨hreturns.writes.mono ⟨[mark], name :: ps ++ [semi], by simp⟩,
      List.forall_mem_map.mpr fun param hmem => ?_⟩
    exact (hparams.writes param hmem).mono ⟨mark :: us ++ [name], [semi], by simp⟩

theorem IsMembers.writes {owner : String} {members : List ReadMember}
    (h : IsMembers owner n ts members n') :
    ∀ type ∈ (members.map (·.decl)).flatMap MemberDecl.types, Writes ts type := by
  induction h with
  | nil => simp
  | cons hmember _ ih =>
    rw [List.map_cons, List.flatMap_cons]
    refine List.forall_mem_append.mpr ⟨fun type htype => ?_, fun type htype => ?_⟩
    · exact (hmember.writes type htype).mono (List.prefix_append _ _).isInfix
    · exact (ih type htype).mono (List.suffix_append _ _).isInfix

theorem IsClass.writes {decl : ClassDecl} (h : IsClass settings n ts decl n') :
    ∀ type ∈ decl.types, Writes ts type := by
  obtain ⟨inner, members, _, hsub, hmembers, hdecls⟩ := h.exists_members
  rw [ClassDecl.types, hdecls]
  exact fun type htype => (hmembers.writes type htype).mono hsub

/-- Each type of a list of items, at any depth. -/
theorem IsItems.writes {items : List Item} (h : IsItems settings n ts items n')
    (scope : List String) : ∀ type ∈ Item.typesOf scope items, Writes ts type := by
  induction items using Item.induction generalizing n ts n' scope with
  | nil => exact fun type htype => absurd htype List.not_mem_nil
  | space head items rest ih ihrest =>
    rw [Item.typesOf_space]
    cases h with
    | cons hitem hitems =>
      obtain ⟨inner, _, hsub, hinside⟩ := hitem.exists_items
      refine List.forall_mem_append.mpr ⟨fun type htype => ?_, fun type htype => ?_⟩
      · exact (ih hinside _ type htype).mono (hsub.trans (List.prefix_append _ _).isInfix)
      · exact (ihrest hitems scope type htype).mono (List.suffix_append _ _).isInfix
  | definition decl rest ih =>
    cases h with
    | cons hitem hitems =>
      cases hitem with
      | definition hclass =>
        refine List.forall_mem_append.mpr ⟨fun type htype => ?_, fun type htype => ?_⟩
        · exact (hclass.writes type htype).mono (List.prefix_append _ _).isInfix
        · exact (ih hitems scope type htype).mono (List.suffix_append _ _).isInfix
  | forward decl rest ih =>
    cases h with
    | cons hitem hitems =>
      exact fun type htype => (ih hitems scope type htype).mono (List.suffix_append _ _).isInfix

/-- In a row of tokens, a type covers what stands from its first token to its last one. -/
theorem IsType.span_eq {type : TypeExpr} (h : IsType n ts type n') (hts : Token.InRow ts)
    (hne : ts ≠ []) : type.span =
      ⟨(ts.head hne).span.start, (ts.getLast hne).span.stop, (ts.head hne).span.line⟩ := by
  have hfirst := List.head?_eq_some_head hne
  have hlast := List.getLast?_eq_some_getLast hne
  cases h with
  | mk => rw [spanOf_eq_cover hfirst hlast, hts.cover_eq hfirst hlast]

/-- A class with one method, which returns the type. -/
theorem IsType.isFile_returning {type : TypeExpr} (h : IsType 0 ts type n)
    (settings : GrammarSettings)
    {keyword owner opening method left right semi closing last : Token}
    (hkeyword : keyword.kind = .classKeyword) (howner : owner.kind = .identifier)
    (hupper : startsUpper owner.text = true) (hopening : opening.kind = .openBrace)
    (hmethod : method.kind = .identifier) (hlower : startsLower method.text = true)
    (hleft : left.kind = .openParen) (hright : right.kind = .closeParen)
    (hsemi : semi.kind = .semicolon) (hclosing : closing.kind = .closeBrace)
    (hlast : last.kind = .semicolon) :
    ∃ decl m, IsFile settings
        ([keyword, owner, opening] ++ (ts ++ [method, left, right, semi, closing, last]))
        ⟨[.definition decl]⟩ ∧
      decl.members = [.method m] ∧ m.returns = type := by
  have hmember : IsMember owner.text 0 (ts ++ method :: [left, right] ++ [] ++ [semi]) _ (n + 1) :=
    .method h hmethod hlower (.none hleft hright) .absent hsemi
  have hmembers := IsMembers.cons hmember .nil
  have hclass : IsClass settings 0 _ _ _ := .mk .absent hkeyword howner hupper hopening hmembers
    hclosing hlast fun _ _ => by simp [crowded]
  have hitems := IsItems.cons (.definition hclass) .nil
  simp only [List.nil_append, List.append_nil, List.append_assoc, List.cons_append] at hitems
  exact ⟨_, _, ⟨_, hitems⟩, rfl, rfl⟩

end Grammar

/-! ## Set in front of a method -/

/-- A class with one method, and `type` as what the method returns. -/
def returning (owner type method : String) : String :=
  "class " ++ owner ++ " \x7b\n" ++ type ++ "\n" ++ method ++ "();\n\x7d;\n"

/-- As what a method returns, the text is read as the type again, under any settings and whatever
the method and its class are called. Only the id and the place are other ones. -/
def TypeExpr.IsReadFrom (type : TypeExpr) (text : String) : Prop :=
  ∀ (settings : GrammarSettings) (owner method : String),
    isIdentifier owner = true → startsUpper owner = true →
    isIdentifier method = true → startsLower method = true →
    ∃ decl m, InterfaceFile.ofText settings (returning owner text method) =
        .ok ⟨[.definition decl]⟩ ∧
      decl.members = [.method m] ∧
      m.returns = { type with id := m.returns.id, span := m.returns.span }

/-- The line that opens the class. -/
def ownerLine (owner : String) : List Piece :=
  [.fixed .classKeyword, .space, .name owner, .space, .fixed .openBrace]

/-- The lines behind the type. -/
def methodLines (method : String) : List (List Piece) :=
  [[.name method, .fixed .openParen, .fixed .closeParen, .fixed .semicolon],
    [.fixed .closeBrace, .fixed .semicolon]]

section

variable {owner method : String}

/-- The line of the class, the type on lines of its own, then the name of the method and what closes
the class. -/
theorem toList_returning (owner type method : String) :
    (returning owner type method).toList = Piece.spelled (ownerLine owner) ++
      '\n' :: (type.toList ++ '\n' :: Piece.text (methodLines method)) := by
  simp [returning, ownerLine, methodLines, Piece.chars, Piece.fixed, Piece.name,
    TokenKind.describe]

theorem clear_ownerLine (h : isIdentifier owner = true) : Piece.Clear (ownerLine owner) :=
  clear_opening h

/-- Each line behind the type is read piece by piece, since the name of a method is one word. -/
theorem clear_methodLines (h : isIdentifier method = true) :
    ∀ line ∈ methodLines method, Piece.Clear line := by
  rintro line (_ | ⟨_, _ | ⟨_, ⟨⟩⟩⟩)
  · exact fun _ => ⟨Piece.stands_name h (Piece.endsWord_cons rfl _), Piece.stands_mark rfl _,
      Piece.stands_mark rfl _, Piece.stands_mark rfl _, trivial⟩
  · exact fun _ => ⟨Piece.stands_closeBrace _, Piece.stands_mark rfl _, trivial⟩

/-- The three tokens in front of the type. -/
theorem tokens_ownerLine (owner : String) (p : Position) : ∃ keyword name opening,
    Piece.tokens p (ownerLine owner) = [keyword, name, opening] ∧
      keyword.kind = .classKeyword ∧ name.kind = .identifier ∧ name.text = owner ∧
      opening.kind = .openBrace := by
  rw [ownerLine, Piece.tokens_fixed, Piece.tokens_space, Piece.tokens_name, Piece.tokens_space,
    Piece.tokens_fixed]
  exact ⟨_, _, _, rfl, rfl, rfl, rfl, rfl⟩

/-- The six tokens behind the type. -/
theorem tokens_methodLines (method : String) (p : Position) :
    ∃ name left right semi closing last,
      Piece.allTokens p (methodLines method) = [name, left, right, semi, closing, last] ∧
        name.kind = .identifier ∧ name.text = method ∧ left.kind = .openParen ∧
        right.kind = .closeParen ∧ semi.kind = .semicolon ∧ closing.kind = .closeBrace ∧
        last.kind = .semicolon := by
  simp only [methodLines, Piece.allTokens_cons, Piece.tokens_fixed, Piece.tokens_name]
  exact ⟨_, _, _, _, _, _, rfl, rfl, rfl, rfl, rfl, rfl, rfl, rfl⟩

/-- An excerpt set in front of a method is scanned as its own tokens, between those of the class. -/
theorem Scan.ofText_returning (howner : isIdentifier owner = true)
    (hmethod : isIdentifier method = true) {part : String} {us : List Token}
    (h : Excerpt part.toList us) : ∃ us' p,
      ofText (returning owner part method) = ⟨Piece.tokens .origin (ownerLine owner) ++
        (us' ++ Piece.allTokens p (methodLines method)), none⟩ ∧
      Grammar.SameWords us' us := by
  let p := (Position.origin.afterAll (Piece.spelled (ownerLine owner))).after '\n'
  obtain ⟨us', hus, hwords⟩ := h p ('\n' :: Piece.text (methodLines method))
    (Piece.endsWord_cons rfl _)
  refine ⟨us', (p.afterAll part.toList).after '\n', ?_, hwords⟩
  rw [ofText, toList_returning, Piece.walk_line (clear_ownerLine howner _), walk_blank rfl, hus,
    walk_blank rfl, Piece.walk_lines (clear_methodLines hmethod), Piece.foldr_cons]
  rfl

/-- What is written with the words of a type is read as the type again. -/
theorem TypeExpr.isReadFrom {part : String} {us : List Token} {n n' : NodeId} {type : TypeExpr}
    (h : Grammar.IsType n us type n') (hpart : Scan.Excerpt part.toList us) :
    type.IsReadFrom part := by
  intro settings owner method howner hupper hmethod hlower
  obtain ⟨us', p, hscan, hwords⟩ := Scan.ofText_returning howner hmethod hpart
  have htype := h.respelled hwords 0
  obtain ⟨keyword, name, opening, hfront, hkeyword, hname, rfl, hopening⟩ :=
    tokens_ownerLine owner .origin
  obtain ⟨called, left, right, semi, closing, last, hback, hcalled, rfl, hleft, hright, hsemi,
    hclosing, hlast⟩ := tokens_methodLines method p
  rw [hfront, hback] at hscan
  obtain ⟨decl, m, hfile, hmembers, hreturns⟩ := (h.respelled hwords 0).isFile_returning settings
    hkeyword hname hupper hopening hcalled hlower hleft hright hsemi hclosing hlast
  refine ⟨decl, m, ?_, hmembers, by rw [hreturns]⟩
  exact InterfaceFile.ofText_of_isFile (Token.ofText_eq_ok_iff.mpr ⟨_, hscan, rfl⟩) hfile

end

/-! ## Texts -/

namespace InterfaceFile

variable {settings : GrammarSettings} {text : String} {file : InterfaceFile}

/-- What the span of a type covers in an accepted text is read as the type again. -/
theorem exists_stretch_type (h : ofText settings text = .ok file) {type : TypeExpr}
    (htype : type ∈ file.types) :
    ∃ st : Stretch text, st.span = type.span ∧ type.IsReadFrom st.part := by
  obtain ⟨ts, hscan, hrow, hitems⟩ := scan_of_ofText h
  obtain ⟨us, n, n', ⟨before, after, rfl⟩, hus⟩ := hitems.writes [] type htype
  obtain ⟨first, rest, hcons, -⟩ := hus.first
  have hne : us ≠ [] := by simp [hcons]
  rw [Scan.ofText, List.append_assoc] at hscan
  obtain ⟨front, cs, hfront, hahead⟩ := Scan.walk_behind hscan
  obtain ⟨gap, part, behind, rfl, -, -, hspan, hexcerpt⟩ :=
    Scan.exists_excerpt hne hus.isCompact hahead
  have hstands : Stretch.Stands text ((Position.origin.afterAll front).afterAll gap)
      (part ++ behind) :=
    ⟨front ++ gap, by simp [hfront], Position.afterAll_append _ _ _⟩
  obtain ⟨st, hst, hpart, -⟩ := hstands.exists_stretch
  refine ⟨st, ?_, TypeExpr.isReadFrom hus ?_⟩
  · rw [hst, hspan, hus.span_eq hrow.left.right hne]
  · rwa [hpart, String.toList_ofList]

/-- The spans of an accepted text are exact and nested: every one runs from the beginning of a token
to the end of one and has the line it begins on, and what is part of a construct is inside it and in
order. What the span of a type covers is read as that type elsewhere. -/
theorem ofText_wellNested (h : ofText settings text = .ok file) :
    (∀ s ∈ file.spans, s.Exact text) ∧ file.Nested ∧
      ∀ type ∈ file.types, ∃ st : Stretch text, st.span = type.span ∧
        type.IsReadFrom st.part :=
  ⟨exact_of_ofText h, nested_of_ofText h, fun _ htype => exists_stretch_type h htype⟩

/-! Comments inside of a type, and a class whose override is on the same line. -/

/-- Comments inside two of its types, one of them over the end of a line: their spans cover more
than their words. -/
def commentedText : String :=
  "namespace a \x7b #include <b.h> class B \x7b\n" ++
    "const B /* // */ :: C& f(shared_ptr< // >\nB> b); \x7d; \x7d"

/-- The six spans are those of the block, the include line, the class, the method and its two
types. -/
theorem commentedText_wellNested :
    ∃ file, ofText default commentedText = .ok file ∧ file.spans.length = 6 ∧
      (∀ s ∈ file.spans, s.Exact commentedText) ∧ file.Nested ∧
        ∀ type ∈ file.types, ∃ st : Stretch commentedText, st.span = type.span ∧
          type.IsReadFrom st.part := by
  have hspans : (ofText default commentedText).toOption.map (·.spans.length) = some 6 := by
    decide +kernel
  obtain ⟨file, hfile, hlength⟩ := Option.map_eq_some_iff.mp hspans
  have hok := Except.eq_ok_of_toOption hfile
  exact ⟨file, hok, hlength, ofText_wellNested hok⟩

end InterfaceFile

end BindingIdl
