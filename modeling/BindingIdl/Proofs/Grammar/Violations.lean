import BindingIdl.Proofs.Grammar.Completeness
import BindingIdl.Proofs.Grammar.Progress
import BindingIdl.Proofs.Grammar.Relaxed

/-!
# Violations are reported and read over

What is derived without the rules on names, includes and forward declarations is read to its end,
and the reports on the way are those that the derivation owes, each once and no others: a violation
has no effect on what is read behind it.

`Parser.Yields` is reading with reports, in any order. An include line is read together with what
stands behind it, so along a list of items the line that was met last is still pending
(`IsLooseItems.yields_nextItems`). A loosely derived file has exactly the errors that its derivation
owes under the settings (`InterfaceFile.errors_perm`); the main statement,
`InterfaceFile.ofTokens_of_isLooseFile`, says so where crowded members are let pass.
-/

namespace BindingIdl

/-! ## Reading with reports -/

namespace Parser

variable {α β : Type} {c mid next : Cursor} {ds es : List Diagnostic}

/-- Started at `c`, the parser answers `a` at `next`, and on the way it reports `ds` in some
order. -/
def Yields (p : Parser α) (c : Cursor) (a : α) (ds : List Diagnostic) (next : Cursor) : Prop :=
  ∃ es, p c = ⟨.ok a, es, next⟩ ∧ es.Perm ds

/-- Reading is reading with no reports. -/
theorem Reads.yields {p : Parser α} {a : α} (h : Reads p c a next) : Yields p c a [] next :=
  ⟨[], h, .nil⟩

theorem Yields.perm {p : Parser α} {a : α} (h : Yields p c a ds next) (hds : ds.Perm es) :
    Yields p c a es next := by
  obtain ⟨reported, hp, hreported⟩ := h
  exact ⟨reported, hp, hreported.trans hds⟩

theorem Yields.bind {p : Parser α} {f : α → Parser β} {a : α} {b : β} (h : Yields p c a ds mid)
    (h' : Yields (f a) mid b es next) : Yields (p >>= f) c b (ds ++ es) next := by
  obtain ⟨reported, hp, hds⟩ := h
  obtain ⟨others, hf, hes⟩ := h'
  exact ⟨reported ++ others, by rw [bind_of_ok f hp, hf], hds.append hes⟩

theorem Reads.bind_yields {p : Parser α} {f : α → Parser β} {a : α} {b : β} (h : Reads p c a mid)
    (h' : Yields (f a) mid b ds next) : Yields (p >>= f) c b ds next := h.yields.bind h'

theorem Yields.bind_reads {p : Parser α} {f : α → Parser β} {a : α} {b : β}
    (h : Yields p c a ds mid) (h' : Reads (f a) mid b next) : Yields (p >>= f) c b ds next := by
  rw [← List.append_nil ds]
  exact h.bind h'.yields

theorem yields_report (d : Diagnostic) (c : Cursor) : Yields (report d) c () [d] c :=
  ⟨[d], rfl, .refl _⟩

/-- A condition that fails is one report, and what is read behind it stays the same. -/
theorem yields_require (holds : Bool) (d : Diagnostic) (c : Cursor) :
    Yields (require holds d) c () (Grammar.reportUnless holds d) c := by
  cases holds with
  | true => exact (Reads.require rfl).yields
  | false => exact yields_report d c

theorem yields_reportAll (ds : List Diagnostic) (c : Cursor) : Yields (reportAll ds) c () ds c :=
  ⟨ds, reportAll_apply ds c, .refl _⟩

theorem Yields.attempt {p : Parser α} {a : α} (h : Yields p c a ds next) :
    Yields (Parser.attempt p) c (.ok a) ds next := by
  obtain ⟨es, hp, hds⟩ := h
  exact ⟨es, by rw [Parser.attempt, hp], hds⟩

/-- One more step of a repetition. -/
theorem Yields.collect_some {step : Parser (Option α)} (hstep : Progresses step) {a : α}
    {as : List α} (h : Yields step c (some a) ds mid) (h' : Yields (collect step) mid as es next) :
    Yields (collect step) c (a :: as) (ds ++ es) next := by
  obtain ⟨reported, hfirst, hds⟩ := h
  obtain ⟨others, hrest, hes⟩ := h'
  refine ⟨reported ++ others, ?_, hds.append hes⟩
  rw [collect_of_some hstep hfirst, hrest]
  rfl

/-- A step that adds nothing ends the repetition with its reports. -/
theorem Yields.collect_none {step : Parser (Option α)} (hstep : Progresses step)
    (h : Yields step c none ds next) : Yields (collect step) c [] ds next := by
  obtain ⟨reported, hlast, hds⟩ := h
  exact ⟨reported, collect_of_none hstep hlast, hds⟩

end Parser

end BindingIdl

open BindingIdl.Parser BindingIdl.Grammar

namespace BindingIdl.Grammar

variable {settings : GrammarSettings} {owner : String} {stop : Token} {n n' : NodeId}
  {ts rest : List Token} {ds : List Diagnostic}

/-! ## Members -/

/-- The part of a method behind its `static`, with what its name and its `const` are reported
for. -/
theorem yields_methodDecl {isStatic isConst : Bool} (start : Span) {ps cs : List Token}
    {name semi : Token} {returns : TypeExpr} {params : List ParameterDecl} {n₁ n₂ : NodeId}
    {es : List Diagnostic} (htype : IsType n ts returns n₁) (hname : name.kind = .identifier)
    (hspelled : ∀ c, Yields (requireMethodName owner isStatic name) c () ds c)
    (hparams : IsParameters n₁ ps params n₂)
    (hconst : Yields (constMark owner isStatic name.text) ⟨cs ++ semi :: rest, stop, n₂⟩ isConst es
      ⟨semi :: rest, stop, n₂⟩)
    (hsemi : semi.kind = .semicolon) :
    Yields (methodDecl owner start isStatic) ⟨ts ++ name :: (ps ++ (cs ++ semi :: rest)), stop, n⟩
      ⟨.method ⟨n₂, name.text, isStatic, isConst, params, returns, start.cover semi.span⟩,
        semi.span.line⟩
      (ds ++ es) ⟨rest, stop, n₂ + 1⟩ := by
  have hreads := htype.reads
    (show (⟨name :: (ps ++ (cs ++ semi :: rest)), stop, n⟩ : Cursor).kind = _ from hname)
  refine hreads.bind_yields ((Reads.expect hname).bind_yields ((hspelled _).bind ?_))
  refine hparams.reads.bind_yields (hconst.bind_reads ?_)
  exact (Reads.expect hsemi).bind (Reads.freshId.bind .pure)

/-- A mark behind a static method is reported and taken. -/
theorem yields_constMark {cs : List Token} {isConst : Bool} (owner name : String) (isStatic : Bool)
    (h : IsConst cs isConst) (follow : (⟨rest, stop, n⟩ : Cursor).kind ≠ .constKeyword) :
    Yields (constMark owner isStatic name) ⟨cs ++ rest, stop, n⟩ isConst
      (if isStatic then cs.map fun mark => .about mark.span (.constStaticMethod owner name) else [])
      ⟨rest, stop, n⟩ := by
  cases h with
  | absent =>
    have hreads : Reads (constMark owner isStatic name) ⟨[] ++ rest, stop, n⟩ false _ :=
      (Reads.accept_none follow).bind .pure
    rw [List.map_nil, ite_self]
    exact hreads.yields
  | present ht =>
    refine (Reads.accept ht).bind_yields (Yields.bind_reads (a := ()) ?_ .pure)
    cases isStatic with
    | true => exact yields_report _ _
    | false => exact (Reads.require rfl).yields

/-- A misnamed method is read like any other, with a report for its name. -/
theorem IsLooseMember.yields {read : ReadMember} (h : IsLooseMember owner n ts read ds n') :
    Yields (member owner) ⟨ts ++ rest, stop, n⟩ read ds ⟨rest, stop, n'⟩ := by
  cases h with
  | constructor hname howner hparams hsemi =>
    exact (IsMember.constructor hname howner hparams hsemi).reads.yields
  | @method n₁ n₂ ts ps cs name semi returns params isConst htype hname hparams hconst hsemi =>
    have not_at := htype.not_atConstructor
      (show (⟨name :: (ps ++ (cs ++ semi :: rest)), stop, n⟩ : Cursor).kind = _ from hname) owner
    obtain ⟨t, us, rfl, ht⟩ := htype.first
    have span_eq : spanOf (t :: us ++ name :: ps ++ cs ++ [semi]) = t.span.cover semi.span :=
      spanOf_eq_cover rfl List.getLast?_concat
    -- here the name is reported and not required
    have hspelled (c : Cursor) : Yields (requireMethodName owner false name) c () _ c :=
      yields_require (startsLower name.text) (.about name.span (.methodName owner name.text)) c
    have hmark := yields_constMark owner name.text false hconst
      (show (⟨semi :: rest, stop, n₂⟩ : Cursor).kind ≠ _ by simp [hsemi])
    have hyields := yields_methodDecl t.span htype hname hspelled hparams hmark hsemi
    rw [span_eq]
    simp only [List.append_assoc, List.cons_append, List.nil_append] at not_at hyields ⊢
    refine Reads.span.bind_yields ((Reads.accept_none ?_).bind_yields
      (Reads.cursor.bind_yields ?_))
    · obtain ht | ht := ht <;> simp [ht]
    · rw [if_neg (by rw [not_at]; decide)]
      simp only [Bool.false_eq_true, if_false, List.append_nil] at hyields
      exact hyields
  | @staticMethod n₁ n₂ ts ps cs mark name semi returns params isConst hmark htype hname hparams
      hconst hsemi =>
    have span_eq : spanOf (mark :: ts ++ name :: ps ++ cs ++ [semi]) = mark.span.cover semi.span :=
      spanOf_eq_cover rfl List.getLast?_concat
    have hspelled (c : Cursor) : Yields (requireMethodName owner true name) c () _ c :=
      yields_require (startsWithLetter name.text)
        (.about name.span (.staticMethodName owner name.text)) c
    have hconst := yields_constMark owner name.text true hconst
      (show (⟨semi :: rest, stop, n₂⟩ : Cursor).kind ≠ _ by simp [hsemi])
    have hyields := yields_methodDecl mark.span htype hname hspelled hparams hconst hsemi
    rw [span_eq]
    simp only [List.append_assoc, List.cons_append, List.nil_append] at hyields ⊢
    exact Reads.span.bind_yields ((Reads.accept hmark).bind_yields hyields)

/-- What a member can begin with, also one that breaks a rule. -/
theorem IsLooseMember.first {read : ReadMember} (h : IsLooseMember owner n ts read ds n') :
    ∃ t us, ts = t :: us ∧
      (t.kind = .constKeyword ∨ t.kind = .identifier ∨ t.kind = .staticKeyword) := by
  cases h with
  | constructor hname => exact ⟨_, _, rfl, .inr (.inl hname)⟩
  | method htype =>
    obtain ⟨t, us, rfl, ht⟩ := htype.first
    exact ⟨t, _, rfl, ht.imp_right .inl⟩
  | staticMethod hmark => exact ⟨_, _, rfl, .inr (.inr hmark)⟩

theorem IsLooseMember.yields_nextMember {read : ReadMember}
    (h : IsLooseMember owner n ts read ds n') :
    Yields (nextMember owner) ⟨ts ++ rest, stop, n⟩ (some (some read)) ds ⟨rest, stop, n'⟩ := by
  have hyields : Yields _ ⟨ts ++ rest, stop, n⟩ _ _ _ := h.yields
  obtain ⟨t, us, rfl, ht⟩ := h.first
  refine Reads.kind.bind_yields ?_
  obtain ht | ht | ht := ht <;>
    rw [List.cons_append, Cursor.kind_cons, ht] <;>
    exact hyields.attempt.bind_reads .pure

/-- The loop over members collects their reports in order. -/
theorem IsLooseMembers.yields_nextMembers {members : List ReadMember}
    (h : IsLooseMembers owner n ts members ds n') {closing : Token}
    (hclosing : closing.kind = .closeBrace) :
    Yields (collect (nextMember owner)) ⟨ts ++ closing :: rest, stop, n⟩ (members.map some) ds
      ⟨closing :: rest, stop, n'⟩ := by
  induction h with
  | nil =>
    refine .collect_none (progresses_nextMember owner) (Reads.kind.bind_yields ?_)
    rw [List.nil_append, Cursor.kind_cons, hclosing]
    exact Reads.pure.yields
  | cons hmember _ ih =>
    rw [List.append_assoc]
    exact .collect_some (progresses_nextMember owner) hmember.yields_nextMember ih

/-! ## Classes -/

/-- The members that are reported as crowded are the second ones of the crowded pairs. -/
theorem crowded_eq (members : List ReadMember) :
    crowded members = (crowdedPairs members).map (·.2.decl) := by
  induction members using crowded.induct with
  | case1 first second rest hline ih =>
    rw [crowded, if_pos hline, ih]
    simp [crowdedPairs, hline]
  | case2 first second rest hline ih =>
    rw [crowded, if_neg hline, ih]
    simp [crowdedPairs, hline]
  | case3 members hfew =>
    obtain _ | ⟨first, _ | ⟨second, rest⟩⟩ := members
    · rfl
    · rfl
    · exact absurd rfl (hfew first second rest)

theorem yields_crowding {α : Type} {p : Parser α} {c next : Cursor} {a : α} (owner : String)
    (opening closing : Token) (members : List ReadMember) (h : Reads p c a next) :
    Yields (do
        if settings.oneDeclarationPerLine && opening.span.line ≠ closing.span.line then
          reportAll ((crowded members).map fun decl => .about decl.span (.crowdedLine owner))
        p) c a (crowdingReports settings owner opening closing members) next := by
  by_cases happart :
      settings.oneDeclarationPerLine = true ∧ opening.span.line ≠ closing.span.line
  · rw [crowdingReports, if_pos happart, if_pos (by simpa using happart), crowded_eq, List.map_map]
    exact (yields_reportAll _ _).bind_reads h
  · rw [crowdingReports, if_neg happart, if_neg (by simpa using happart)]
    exact h.yields

/-- A class yields the reports on its name, on its members and, where settings ask, on crowded
ones. -/
theorem IsLooseClass.yields (h : IsLooseClass settings n ts ds n')
    (override : Option IncludeOverride) (rest : List Token) (stop : Token) :
    ∃ decl, Yields (classItem settings override) ⟨ts ++ rest, stop, n⟩ (some (.definition decl)) ds
      ⟨rest, stop, n'⟩ := by
  cases h with
  | @mk n' ts keyword name opening closing semi members ds hkeyword hname hopening hmembers
      hclosing hsemi =>
    have hbody : Yields _ ⟨ts ++ closing :: semi :: rest, stop, n⟩ _ _ _ :=
      hmembers.yields_nextMembers hclosing
    have all_read : (members.map some).filterMap id = members := by simp
    refine ⟨⟨n', name.text, override, members.map (·.decl), keyword.span.cover closing.span⟩, ?_⟩
    simp only [List.append_assoc, List.cons_append, List.nil_append]
    refine Reads.take.bind_yields ((Reads.expect hname).bind_yields (Reads.kind.bind_yields ?_))
    rw [Cursor.kind_cons, if_neg (by rw [hopening]; decide)]
    refine (yields_require _ _ _).bind
      ((Reads.accept_none (by simp [hopening])).bind_yields (Yields.bind_reads ?_ .pure))
    refine (Reads.expect hopening).bind_yields (hbody.bind (Reads.take.bind_yields ?_))
    rw [all_read]
    exact (Reads.accept hsemi).bind_yields
      (yields_crowding name.text opening closing members (Reads.freshId.bind .pure))

/-! ## Namespaces and forward declarations -/

theorem IsLooseNamespaceName.yields {ns : List Token} (h : IsLooseNamespaceName ns ds)
    (follow : (⟨rest, stop, n⟩ : Cursor).kind ≠ .identifier) :
    ∃ t : Option Token, Reads (Parser.accept .identifier) ⟨ns ++ rest, stop, n⟩ t ⟨rest, stop, n⟩ ∧
      ∀ c, Yields (t.forM fun t =>
        Parser.require (startsLower t.text) (.about t.span (.namespaceName t.text))) c () ds c := by
  cases h with
  | absent => exact ⟨none, .accept_none follow, fun c => Reads.pure.yields⟩
  | present ht => exact ⟨some _, .accept ht, fun c => yields_require _ _ c⟩

/-- A qualified name has `::` behind its first token. -/
theorem IsName.colons {path : QualifiedName} (h : IsName ts path) (hpath : path.isQualified = true)
    (rest : List Token) (stop : Token) (n : NodeId) :
    ∃ first us, ts = first :: us ∧ (⟨us ++ rest, stop, n⟩ : Cursor).kind = .doubleColon := by
  cases h with
  | bare => cases hpath
  | qualified _ hcolons => exact ⟨_, _, rfl, hcolons⟩

/-- A qualified forward declaration is read to its `;` and declares nothing. The include line in
front of it is taken along without a report of its own. -/
theorem yields_classItem_qualified {path : QualifiedName} {keyword semi : Token}
    (override : Option IncludeOverride) (hname : IsName ts path) (hpath : path.isQualified = true)
    (hsemi : semi.kind = .semicolon) :
    Yields (classItem settings override) ⟨keyword :: (ts ++ semi :: rest), stop, n⟩ none
      [⟨.qualifiedForward path, keyword.span.line, (keyword.span.cover semi.span).extent⟩]
      ⟨rest, stop, n⟩ := by
  obtain ⟨first, us, rfl, hcolons⟩ := hname.colons hpath (semi :: rest) stop n
  obtain ⟨_, _, more, hsame, hfirst, rfl, -, hcollects⟩ := hname.collects (e := .className)
    (show (⟨semi :: rest, stop, n⟩ : Cursor).kind ≠ _ by simp [hsemi])
  cases hsame
  rw [List.cons_append]
  refine Reads.take.bind_yields ((Reads.expect hfirst).bind_yields (Reads.kind.bind_yields ?_))
  rw [if_pos hcolons]
  refine Yields.bind_reads (a := ()) ?_ .pure
  refine (reads_segments_iff.mpr hcollects).bind_yields (Reads.span.bind_yields ?_)
  exact (Reads.expect hsemi).bind_yields (yields_report _ _)

theorem danglingReports_nil (shapes : List ItemShape) : danglingReports [] shapes = [] := by
  simp [danglingReports]

/-- An include line in front of what it cannot override. -/
theorem yields_reportDangling {is : List Token} {override : Option IncludeOverride}
    (h : IsOverride is override) (c : Cursor) :
    Yields (override.forM reportDangling) c () (danglingReports is []) c := by
  cases h with
  | absent => exact Reads.pure.yields
  | present => exact yields_report _ c

/-- A forward declaration cannot take an include line, so that line is reported, behind the name. -/
theorem yields_classItem_forward {is : List Token} {override : Option IncludeOverride}
    {keyword name semi : Token} (hoverride : IsOverride is override)
    (hname : name.kind = .identifier) (hsemi : semi.kind = .semicolon) :
    Yields (classItem settings override) ⟨keyword :: name :: semi :: rest, stop, n⟩
      (some (.forward ⟨n, name.text, keyword.span.cover semi.span⟩))
      (reportUnless (startsUpper name.text) (.about name.span (.className name.text)) ++
        danglingReports is [])
      ⟨rest, stop, n + 1⟩ := by
  refine Reads.take.bind_yields ((Reads.expect hname).bind_yields (Reads.kind.bind_yields ?_))
  rw [Cursor.kind_cons, if_neg (by rw [hsemi]; decide)]
  refine (yields_require _ _ _).bind ((Reads.accept hsemi).bind_yields ?_)
  exact (yields_reportDangling hoverride _).bind_reads (Reads.freshId.bind .pure)

/-! ## Items -/

/-- What is asked of the parser of a namespace's body: to read items on at most `k` tokens, with
their reports. -/
def YieldsDerived (settings : GrammarSettings) (k : Nat) (body : Parser (List Item)) : Prop :=
  ∀ {n n' ts shapes ds rest stop}, IsLooseItems settings n ts shapes ds n' →
    EndsItems true ⟨rest, stop, n'⟩ → (ts ++ rest).length ≤ k →
      ∃ items, Yields body ⟨ts ++ rest, stop, n⟩ items ds ⟨rest, stop, n'⟩

variable {k : Nat} {nested : Bool} {body : Parser (List Item)} {shape : ItemShape}
  {shapes : List ItemShape} {is : List Token} {override : Option IncludeOverride}

/-- What an item can begin with, once its include line is read. -/
theorem IsLooseItem.first (h : IsLooseItem settings n ts shape ds n') :
    ∃ t us, ts = t :: us ∧ (t.kind = .namespaceKeyword ∨ t.kind = .classKeyword) := by
  cases h with
  | space hkeyword => exact ⟨_, _, rfl, .inl hkeyword⟩
  | definition hclass =>
    cases hclass with
    | mk hkeyword => exact ⟨_, _, rfl, .inr hkeyword⟩
  | forward hkeyword => exact ⟨_, _, rfl, .inr hkeyword⟩
  | qualifiedForward hkeyword => exact ⟨_, _, rfl, .inr hkeyword⟩

/-- A namespace yields the report on its name and those of what is inside. -/
theorem yields_namespaceItem (hbody : YieldsDerived settings k body)
    (override : Option IncludeOverride) {ns cs : List Token} {keyword opening closing : Token}
    {closeName : Option String} {es : List Diagnostic} (hname : IsLooseNamespaceName ns ds)
    (hopening : opening.kind = .openBrace) (hitems : IsLooseItems settings n ts shapes es n')
    (hclosing : IsClosing cs closing closeName) (short : (ts ++ (cs ++ rest)).length ≤ k)
    (follow : (⟨rest, stop, n'⟩ : Cursor).kind ≠ .identifier) :
    ∃ read, Yields (namespaceItem body override)
      ⟨keyword :: (ns ++ opening :: (ts ++ (cs ++ rest))), stop, n⟩ read (ds ++ es)
      ⟨rest, stop, n' + 1⟩ := by
  obtain ⟨us, rfl, hclose, hreads⟩ := hclosing.reads (fun h => absurd h follow)
  obtain ⟨t, hreads', hyields⟩ := hname.yields
    (show (⟨opening :: (ts ++ (closing :: us ++ rest)), stop, n⟩ : Cursor).kind ≠ _ by
      simp [hopening])
  obtain ⟨items, hinside⟩ := hbody hitems
    (show EndsItems true ⟨closing :: us ++ rest, stop, n'⟩ from .inr ⟨rfl, hclose⟩) short
  refine ⟨.space ⟨n', t.map (·.text), override, closeName, keyword.span.cover closing.span⟩ items,
    ?_⟩
  refine Reads.take.bind_yields (hreads'.bind_yields ((hyields _).bind ?_))
  refine (Reads.expect hopening).bind_yields (hinside.bind_reads (Reads.cursor.bind ?_))
  rw [List.cons_append, if_neg (Cursor.not_atEnd_of_closing hclose)]
  exact Reads.take.bind (hreads.bind (Reads.freshId.bind .pure))

/-- A class or a forward declaration is read with the override in front of it. -/
theorem yields_item_of_class {c next : Cursor} {read : Option Item}
    (h : Yields (classItem settings override) c read ds next) (hkind : c.kind = .classKeyword)
    (hreads : Reads includeOverride ⟨is ++ c.rest, c.stop, c.nextId⟩ override c) :
    Yields (item settings body) ⟨is ++ c.rest, c.stop, c.nextId⟩ read ds next := by
  refine hreads.bind_yields (Reads.kind.bind_yields ?_)
  rw [hkind]
  exact h

/-- An item is read together with the include line in front of it, if there is one. -/
theorem IsLooseItem.yields_item (hbody : YieldsDerived settings k body)
    (h : IsLooseItem settings n ts shape ds n') (hoverride : IsOverride is override)
    (shapes : List ItemShape) (short : (ts ++ rest).length ≤ k + 1)
    (follow : (⟨rest, stop, n'⟩ : Cursor).kind ≠ .identifier) :
    ∃ read, Yields (item settings body) ⟨is ++ (ts ++ rest), stop, n⟩ read
      (danglingReports is (shape :: shapes) ++ ds) ⟨rest, stop, n'⟩ := by
  have hreads := hoverride.reads (show (⟨ts ++ rest, stop, n⟩ : Cursor).kind ≠ .includeLine by
    obtain ⟨t, us, rfl, ht | ht⟩ := h.first <;> simp [ht])
  cases h with
  | @space _ n' ns ts cs keyword opening closing closeName shapes ds es hkeyword hname hopening
      hitems hclosing =>
    simp only [List.append_assoc, List.cons_append] at short hreads ⊢
    obtain ⟨read, hyields⟩ := yields_namespaceItem hbody override hname hopening hitems hclosing
      (by simp at short ⊢; omega) follow
    refine ⟨some read, hreads.bind_yields (Reads.kind.bind_yields ?_)⟩
    rw [Cursor.kind_cons, hkeyword]
    exact hyields.bind_reads .pure
  | definition hclass =>
    obtain ⟨decl, hyields⟩ := hclass.yields override rest stop
    refine ⟨some (.definition decl), yields_item_of_class hyields ?_ hreads⟩
    cases hclass with
    | mk hkeyword => exact hkeyword
  | @forward _ keyword name semi hkeyword hname hsemi =>
    -- the report on the include line comes behind the others here, so the order is exchanged
    have hyields : Yields (classItem settings override)
        ⟨[keyword, name, semi] ++ rest, stop, n⟩ _ _ _ :=
      (yields_classItem_forward hoverride hname hsemi).perm List.perm_append_comm
    exact ⟨_, yields_item_of_class hyields hkeyword hreads⟩
  | @qualifiedForward _ ts keyword semi path hkeyword hname hpath hsemi =>
    rw [List.append_assoc, List.cons_append] at hreads ⊢
    have hyields : Yields (classItem settings override)
        ⟨keyword :: (ts ++ semi :: rest), stop, n⟩ _ _ _ :=
      yields_classItem_qualified override hname hpath hsemi
    exact ⟨_, yields_item_of_class hyields hkeyword hreads⟩

/-- One turn of the loop over items. -/
theorem yields_nextItem {c next : Cursor} {read : Option Item}
    (h : Yields (item settings body) c read ds next) (hstart : c.kind ∈ startKinds) :
    Yields (nextItem settings nested body) c (some read) ds next := by
  simp only [startKinds, List.mem_cons, List.not_mem_nil, or_false] at hstart
  refine Reads.kind.bind_yields ?_
  obtain hk | hk | hk := hstart <;>
    rw [hk] <;>
    exact h.attempt.bind_reads .pure

/-- An include line with nothing behind it that it could override. -/
theorem yields_item_dangling {line : Token} (hline : line.kind = .includeLine)
    (hnamespace : (⟨rest, stop, n⟩ : Cursor).kind ≠ .namespaceKeyword)
    (hclass : (⟨rest, stop, n⟩ : Cursor).kind ≠ .classKeyword) :
    Yields (item settings body) ⟨line :: rest, stop, n⟩ none (danglingReports [line] [])
      ⟨rest, stop, n⟩ := by
  have hreads : Reads includeOverride ⟨line :: rest, stop, n⟩ _ ⟨rest, stop, n⟩ :=
    (Reads.accept hline).bind .pure
  refine hreads.bind_yields (Reads.kind.bind_yields ?_)
  split
  · exact absurd ‹_› hnamespace
  · exact absurd ‹_› hclass
  · exact Yields.bind_reads (a := ()) (yields_report _ _) .pure

/-- Where no item takes it as its override, a pending line is read alone. -/
theorem yields_nextItems_pending (hshrinks : Shrinks body) (hoverride : IsOverride is override)
    (hnamespace : (⟨rest, stop, n⟩ : Cursor).kind ≠ .namespaceKeyword)
    (hclass : (⟨rest, stop, n⟩ : Cursor).kind ≠ .classKeyword) {reads : List (Option Item)}
    {next : Cursor}
    (h : Yields (collect (nextItem settings nested body)) ⟨rest, stop, n⟩ reads ds next) :
    ∃ reads, Yields (collect (nextItem settings nested body)) ⟨is ++ rest, stop, n⟩ reads
      (danglingReports is [] ++ ds) next := by
  cases hoverride with
  | absent => exact ⟨reads, h⟩
  | @present line hline =>
    have hitem : Yields (item settings body) ⟨[line] ++ rest, stop, n⟩ _ _ _ :=
      yields_item_dangling hline hnamespace hclass
    have hfirst : Yields (nextItem settings nested body) ⟨[line] ++ rest, stop, n⟩ _ _ _ :=
      yields_nextItem hitem (by simp [startKinds, hline])
    exact ⟨_, .collect_some (progresses_nextItem settings nested hshrinks) hfirst h⟩

theorem EndsItems.kind {c : Cursor} (h : EndsItems nested c) :
    c.kind = .endOfFile ∨ c.kind = .namespaceEnd ∨ c.kind = .closeBrace := by
  obtain ⟨ts, stop, n⟩ := c
  obtain hnil | ⟨-, h⟩ := h
  · obtain rfl : ts = [] := hnil
    exact .inl rfl
  · exact .inr h

/-- What is ahead where items are derived up to the end of their list is no name. -/
theorem IsLooseItems.kind_ne_identifier (h : IsLooseItems settings n ts shapes ds n')
    (hends : EndsItems nested ⟨rest, stop, n'⟩) :
    (⟨ts ++ rest, stop, n⟩ : Cursor).kind ≠ .identifier := by
  cases h with
  | nil => exact hends.kind_ne_identifier
  | includeLine hline => simp [hline]
  | cons hitem => obtain ⟨t, us, rfl, ht | ht⟩ := hitem.first <;> simp [ht]

/-- Items are read one after the other, with the include line that is still pending before the
first of them. -/
theorem IsLooseItems.yields_nextItems (hbody : YieldsDerived settings k body)
    (hshrinks : Shrinks body) (h : IsLooseItems settings n ts shapes ds n')
    (hoverride : IsOverride is override) (short : (ts ++ rest).length ≤ k + 1)
    (hends : EndsItems nested ⟨rest, stop, n'⟩) :
    ∃ reads, Yields (collect (nextItem settings nested body)) ⟨is ++ (ts ++ rest), stop, n⟩ reads
      (danglingReports is shapes ++ ds) ⟨rest, stop, n'⟩ := by
  have hstep := progresses_nextItem settings nested hshrinks
  induction shapes generalizing n ts ds is override with
  | nil =>
    cases h with
    | nil =>
      -- the include line that is still pending is reported at the end of the list
      have hlast := Yields.collect_none hstep hends.reads_nextItem.yields
      have hkind := hends.kind
      refine yields_nextItems_pending hshrinks hoverride ?_ ?_ hlast <;>
        obtain hk | hk | hk := hkind <;> simp [hk]
  | cons shape shapes ih =>
    cases h with
    | includeLine hline hitems =>
      -- a pending line in front of another one is reported, and that one is pending instead
      obtain ⟨reads, hyields⟩ := ih hitems (.present hline) (by simp at short ⊢; omega)
      exact yields_nextItems_pending hshrinks hoverride (by simp [hline]) (by simp [hline]) hyields
    | @cons _ m _ ts us _ _ ds es hitem hitems =>
      rw [List.append_assoc] at short ⊢
      obtain ⟨read, hread⟩ := hitem.yields_item hbody hoverride shapes short
        (hitems.kind_ne_identifier hends)
      obtain ⟨reads, hyields⟩ := ih hitems .absent (by simp at short ⊢; omega)
      have hstart : (⟨is ++ (ts ++ (us ++ rest)), stop, n⟩ : Cursor).kind ∈ startKinds := by
        obtain ⟨t, vs, rfl, ht⟩ := hitem.first
        cases hoverride with
        | absent => obtain ht | ht := ht <;> simp [startKinds, ht]
        | present hline => simp [startKinds, hline]
      refine ⟨read :: reads, ?_⟩
      rw [danglingReports_nil, List.nil_append] at hyields
      rw [← List.append_assoc (danglingReports is _)]
      exact .collect_some hstep (yields_nextItem hread hstart) hyields

/-- Items that are derived are read, with room enough for the namespaces among them. -/
theorem IsLooseItems.yields_itemsWithin (ahead : List Token)
    (h : IsLooseItems settings n ts shapes ds n') (hends : EndsItems nested ⟨rest, stop, n'⟩)
    (short : (ts ++ rest).length ≤ ahead.length) :
    ∃ items, Yields (itemsWithin settings nested ahead) ⟨ts ++ rest, stop, n⟩ items ds
      ⟨rest, stop, n'⟩ := by
  induction ahead generalizing nested n n' ts shapes ds rest stop with
  | nil =>
    cases h with
    | nil => exact ⟨[], Reads.pure.yields⟩
    | includeLine => simp at short
    | cons hitem =>
      obtain ⟨t, us, rfl, -⟩ := hitem.first
      simp at short
  | cons t ahead ih =>
    have hbody : YieldsDerived settings ahead.length (itemsWithin settings true ahead) :=
      fun h hends short => ih h hends short
    obtain ⟨reads, hyields⟩ := h.yields_nextItems hbody (shrinks_itemsWithin settings true ahead)
      .absent short hends
    rw [danglingReports_nil] at hyields
    exact ⟨_, hyields.bind_reads .pure⟩

end BindingIdl.Grammar

/-! ## Files -/

namespace BindingIdl.InterfaceFile

variable {settings : GrammarSettings} {size : Nat} {tokens : List Token}

/-- What a reading is refused for; nothing if it is not. -/
def errors (settings : GrammarSettings) (size : Nat) (tokens : List Token) : List Diagnostic :=
  match ofTokens settings size tokens with
  | .ok _ => []
  | .error ds => ds

theorem errors_eq : errors settings size tokens = (reading settings size tokens).errors := by
  obtain ⟨items, -, hnone, hok⟩ | ⟨-, herror⟩ := ofTokens_cases settings size tokens
  · rw [errors, hok, hnone]
  · rw [errors, herror]

/-- A file is accepted when there is nothing to refuse it for. -/
theorem exists_ofTokens_iff :
    (∃ file, ofTokens settings size tokens = .ok file) ↔ errors settings size tokens = [] := by
  rw [errors_eq]
  obtain ⟨items, -, hnone, hok⟩ | ⟨hne, herror⟩ := ofTokens_cases settings size tokens
  · simp [hok, hnone]
  · simp [herror, hne]

/-- With an error there is no file, and all of the errors are answered. -/
theorem ofTokens_of_errors (h : errors settings size tokens ≠ []) :
    ofTokens settings size tokens = .error (errors settings size tokens) := by
  rw [errors_eq] at h ⊢
  obtain ⟨items, -, hnone, -⟩ | ⟨-, herror⟩ := ofTokens_cases settings size tokens
  · exact absurd hnone h
  · exact herror

/-- The errors of a file are what a derivation of it owes, and there are no others. -/
theorem errors_perm {ds : List Diagnostic}
    (h : IsLooseFile settings (tokens.takeWhile (·.kind ≠ .endOfFile)) ds) :
    (errors settings size tokens).Perm ds := by
  obtain ⟨shapes, n, hitems⟩ := h
  have hends : EndsItems false ⟨[], (beginning size tokens).upToEnd.stop, n⟩ := .inl rfl
  obtain ⟨items, reported, hrun, hds⟩ := hitems.yields_itemsWithin
    (beginning size tokens).upToEnd.rest hends (Nat.le_of_eq (by rw [List.append_nil]; rfl))
  rw [List.append_nil] at hrun
  have hreading : (reading settings size tokens).upToEnd =
      ⟨.ok items, reported, ⟨[], (beginning size tokens).upToEnd.stop, n⟩⟩ :=
    (reading_upToEnd settings size tokens).symm.trans hrun
  rw [errors_eq, ← Parsed.errors_upToEnd, hreading, Parsed.errors, List.append_nil]
  exact hds

/-- A file that breaks rules on names, includes and forward declarations only is refused for each
breach once and for nothing else; without a breach it is accepted. -/
theorem ofTokens_of_isLooseFile {ds : List Diagnostic}
    (h : IsLooseFile ⟨false⟩ (tokens.takeWhile (·.kind ≠ .endOfFile)) ds) :
    (ds = [] → ∃ file, ofTokens ⟨false⟩ size tokens = .ok file) ∧
      (ds ≠ [] → ∃ es, ofTokens ⟨false⟩ size tokens = .error es ∧ es.Perm ds) := by
  have hperm : (errors ⟨false⟩ size tokens).Perm ds := errors_perm h
  refine ⟨fun hds => exists_ofTokens_iff.mpr ?_, fun hds => ?_⟩
  · rw [hds] at hperm
    exact hperm.eq_nil
  · refine ⟨errors ⟨false⟩ size tokens, ofTokens_of_errors fun hnone => hds ?_, hperm⟩
    rw [hnone] at hperm
    exact hperm.symm.eq_nil

/-- A misnamed forward declaration behind an include line, and in a misnamed namespace a qualified
one, which takes the include line in front of it. -/
def misnamed : List Token :=
  [⟨.includeLine, "#include <a.h>", ⟨0, 14, 1⟩⟩,
    ⟨.classKeyword, "class", ⟨15, 20, 2⟩⟩, ⟨.identifier, "point", ⟨21, 26, 2⟩⟩,
    ⟨.semicolon, ";", ⟨26, 27, 2⟩⟩,
    ⟨.namespaceKeyword, "namespace", ⟨28, 37, 3⟩⟩, ⟨.identifier, "Geo", ⟨38, 41, 3⟩⟩,
    ⟨.openBrace, "\x7b", ⟨42, 43, 3⟩⟩,
    ⟨.includeLine, "#include <b.h>", ⟨44, 58, 4⟩⟩,
    ⟨.classKeyword, "class", ⟨59, 64, 5⟩⟩, ⟨.identifier, "far", ⟨65, 68, 5⟩⟩,
    ⟨.doubleColon, "::", ⟨68, 70, 5⟩⟩, ⟨.identifier, "Line", ⟨70, 74, 5⟩⟩,
    ⟨.semicolon, ";", ⟨74, 75, 5⟩⟩, ⟨.closeBrace, "\x7d", ⟨76, 77, 6⟩⟩,
    ⟨.endOfFile, "", ⟨78, 78, 7⟩⟩]

/-- One report for each line that breaks a rule, in the order of the lines. -/
def misnamedReports : List Diagnostic :=
  [⟨.danglingInclude "a.h", 1, ⟨0, 14⟩⟩, ⟨.className "point", 2, ⟨21, 5⟩⟩,
    ⟨.namespaceName "Geo", 3, ⟨38, 3⟩⟩, ⟨.qualifiedForward ⟨["far"], "Line"⟩, 5, ⟨59, 16⟩⟩]

/-- Each breach is reported once. The second include line belongs to the qualified declaration, so
it is not among them. -/
theorem misnamed_refused :
    IsLooseFile ⟨false⟩ (misnamed.takeWhile (·.kind ≠ .endOfFile)) misnamedReports ∧
      ∃ es, ofTokens ⟨false⟩ 78 misnamed = .error es ∧ es.Perm misnamedReports := by
  have hderived : ∃ ds, IsLooseFile ⟨false⟩ (misnamed.takeWhile (·.kind ≠ .endOfFile)) ds ∧
      ds = misnamedReports := by
    apply Exists.intro
    constructor
    · refine ⟨[.includeLine, .forward, .space], 2, ?_⟩
      apply IsLooseItems.includeLine rfl
      apply @IsLooseItems.cons _ _ _ _ [_, _, _]
      · apply IsLooseItem.forward rfl rfl rfl
      apply @IsLooseItems.cons _ _ _ _ [_, _, _, _, _, _, _, _, _, _] []
      · apply @IsLooseItem.space _ _ _ [_] [_, _, _, _, _, _] [_]
        · rfl
        · apply IsLooseNamespaceName.present rfl
        · rfl
        · apply IsLooseItems.includeLine rfl
          apply @IsLooseItems.cons _ _ _ _ [_, _, _, _, _] []
          · apply @IsLooseItem.qualifiedForward _ _ [_, _, _]
            · rfl
            · exact .qualified rfl rfl (.bare rfl)
            · rfl
            · rfl
          · exact .nil
        · exact .brace rfl
      · exact .nil
    · decide +kernel
  obtain ⟨_, hderived, rfl⟩ := hderived
  exact ⟨hderived, (ofTokens_of_isLooseFile hderived).2 (by decide)⟩

end BindingIdl.InterfaceFile
