import BindingIdl.Proofs.Grammar.Confinement
import BindingIdl.Proofs.Grammar.Violations
import BindingIdl.Proofs.Token.Spelling
import Mathlib.Data.List.Forall2

/-!
# Members do not disturb each other

The body of a class is cut into segments, each the tokens up to a `;`. Where members need not be on
lines of their own, the reader of the body goes from segment to segment: in each it reads a member
or reports what stopped it, and both depend on that segment alone, since a member is confined to
what stands in front of its `;` and recovery resumes right behind it (`Segment.nextMember_eq`). The
only thing handed on is the next free id.

So the errors of a class are those of its segments, each as if it stood in the class alone, and so
are its members (`ClassFrame.members_isolated`).
-/

namespace BindingIdl

/-- By how much to renumber the nodes of a tree that is moved nowhere. -/
def Shift.renumber (n : NodeId) : Shift := ⟨0, 0, n⟩

@[simp] theorem Token.shift_renumber (n : NodeId) (t : Token) : t.shift (.renumber n) = t := rfl

@[simp] theorem Diagnostic.shift_renumber (n : NodeId) (d : Diagnostic) :
    d.shift (.renumber n) = d := by
  obtain ⟨cause, line, extent⟩ := d
  cases cause <;> rfl

/-- To renumber moves the next free id and nothing else. -/
theorem Cursor.shift_renumber (n k : NodeId) (rest : List Token) (stop : Token) :
    (⟨rest, stop, k⟩ : Cursor).shift (.renumber n) = ⟨rest, stop, k + n⟩ := by
  have hrest : rest.map (·.shift (.renumber n)) = rest := List.map_id rest
  rw [Cursor.shift, hrest]
  rfl

/-! ## Segments -/

/-- The kinds of the tokens that end a member, its class, a namespace or the file. -/
def limitKinds : List TokenKind := [.semicolon, .closeBrace, .namespaceEnd, .endOfFile]

/-- Any tokens that end nothing, and a `;` behind them. -/
structure Segment where
  tokens : List Token
  semi : Token
  semi_kind : semi.kind = .semicolon
  inside : ∀ t ∈ tokens, t.kind ∉ limitKinds

/-- The tokens of `class C { } ;` around a body, and what stands behind the end of the file. -/
structure ClassFrame where
  keyword : Token
  name : Token
  opening : Token
  closing : Token
  terminator : Token
  ending : List Token
  keyword_kind : keyword.kind = .classKeyword
  name_kind : name.kind = .identifier
  name_upper : startsUpper name.text = true
  opening_kind : opening.kind = .openBrace
  closing_kind : closing.kind = .closeBrace
  terminator_kind : terminator.kind = .semicolon
  ending_kind : ∀ t ∈ ending.head?, t.kind = .endOfFile

namespace Segment

open BindingIdl.Parser

variable (s : Segment) (owner : String)

/-- All tokens of a segment. -/
def all : List Token := s.tokens ++ [s.semi]

/-- What the reader of a body of class `owner` does with a segment. -/
def run : Parsed (Option (Option ReadMember)) := nextMember owner ⟨s.all, default, 0⟩

/-- What the reader complains about in a segment. -/
def reports : List Diagnostic := (s.run owner).reported

/-- The member in a segment, if there is one. -/
def read : Option ReadMember :=
  match (s.run owner).outcome with
  | .ok read => read.join
  | .error _ => none

/-- How many ids are drawn in a segment. -/
def ids : NodeId := (s.run owner).next.nextId

/-- A segment is over at its first `;`. -/
theorem kind_ne_semicolon : ∀ t ∈ s.tokens, t.kind ≠ .semicolon :=
  fun t ht h => s.inside t ht (by simp [h, limitKinds])

/-- Recovery resumes right behind the `;`. -/
theorem skipMember_eq {vs : List Token} (hvs : ∀ t ∈ vs, t.kind ∉ limitKinds)
    (rest : List Token) : skipMember (vs ++ s.semi :: rest) = rest := by
  induction vs with
  | nil => simp [skipMember, s.semi_kind]
  | cons t vs ih =>
    have ht := hvs t List.mem_cons_self
    simp only [limitKinds, List.mem_cons, List.not_mem_nil, or_false, not_or] at ht
    rw [List.cons_append, skipMember]
    split
    · exact absurd ‹_› ht.2.2.2
    · exact absurd ‹_› ht.2.2.1
    · exact absurd ‹_› ht.2.1
    · exact absurd ‹_› ht.1
    · exact ih fun t ht => hvs t (List.mem_cons_of_mem _ ht)

/-- A segment is not empty, and does not start with what the body ends with. -/
theorem kind_ne_limit (rest : List Token) (stop : Token) (n : NodeId) :
    (⟨s.tokens ++ s.semi :: rest, stop, n⟩ : Cursor).kind ∉
      [.closeBrace, .endOfFile, .namespaceEnd] := by
  have hinside := s.inside
  cases h : s.tokens with
  | nil => simp [Cursor.kind, s.semi_kind]
  | cons t ts =>
    have ht := hinside t (h ▸ List.mem_cons_self)
    simp only [limitKinds, List.mem_cons, List.not_mem_nil, or_false, not_or] at ht
    simp [Cursor.kind, ht]

/-- A segment is read or given up as a whole, whatever stands behind it. -/
theorem exists_nextMember (n : NodeId) : ∃ read reported n',
    (read = none → reported ≠ []) ∧ ∀ rest stop,
      nextMember owner ⟨s.tokens ++ s.semi :: rest, stop, n⟩ =
        ⟨.ok (some read), reported, ⟨rest, stop, n'⟩⟩ := by
  obtain ⟨read, reported, n', hrun⟩ | ⟨d, reported, vs, n', hvs, hrun⟩ :=
    closes_member (n := n) s.semi_kind s.kind_ne_semicolon owner
  · refine ⟨some read, reported, n', nofun, fun rest stop => ?_⟩
    have hmember : attempt (member owner) ⟨s.tokens ++ s.semi :: rest, stop, n⟩ =
        ⟨.ok (.ok read), reported, ⟨rest, stop, n'⟩⟩ := by rw [attempt, hrun]
    rw [nextMember_eq_attempt (s.kind_ne_limit rest stop n), bind_of_ok _ hmember]
    simp [pure_apply]
  · refine ⟨none, reported ++ [d], n', by simp, fun rest stop => ?_⟩
    have hmember : attempt (member owner) ⟨s.tokens ++ s.semi :: rest, stop, n⟩ =
        ⟨.ok (.error d), reported, ⟨vs ++ s.semi :: rest, stop, n'⟩⟩ := by rw [attempt, hrun]
    have hskip := s.skipMember_eq (fun t ht => s.inside t (hvs.subset ht)) rest
    rw [nextMember_eq_attempt (s.kind_ne_limit rest stop n), bind_of_ok _ hmember]
    simp [Bind.bind, report, skip, pure_apply, hskip]

/-- The same in terms of what is done with the segment alone. -/
theorem nextMember_first : (s.read owner = none → s.reports owner ≠ []) ∧ ∀ rest stop,
    nextMember owner ⟨s.tokens ++ s.semi :: rest, stop, 0⟩ =
      ⟨.ok (some (s.read owner)), s.reports owner, ⟨rest, stop, s.ids owner⟩⟩ := by
  obtain ⟨read, reported, n', hreported, hrun⟩ := s.exists_nextMember owner 0
  have hself : s.run owner = ⟨.ok (some read), reported, ⟨[], default, n'⟩⟩ := hrun [] default
  have hread : s.read owner = read := by rw [Segment.read, hself]; rfl
  have hreports : s.reports owner = reported := by rw [reports, hself]
  have hids : s.ids owner = n' := by rw [ids, hself]
  rw [hread, hreports, hids]
  exact ⟨hreported, hrun⟩

/-- Where ids have been drawn before, the nodes of the member are renumbered. -/
theorem nextMember_eq (rest : List Token) (stop : Token) (n : NodeId) :
    nextMember owner ⟨s.tokens ++ s.semi :: rest, stop, n⟩ =
      ⟨.ok (some ((s.read owner).map (·.shift (.renumber n)))), s.reports owner,
        ⟨rest, stop, s.ids owner + n⟩⟩ := by
  have hanswer := (matches_nextMember (v := .further default (.renumber n))
    (c := ⟨s.tokens ++ s.semi :: rest, stop, 0⟩) owner).answer
  have hshift : (⟨s.tokens ++ s.semi :: rest, stop, 0⟩ : Cursor).shift
      (View.further default (.renumber n)).shift = ⟨s.tokens ++ s.semi :: rest, stop, n⟩ := by
    rw [View.further, Cursor.shift_renumber, Nat.zero_add]
  rw [hshift, (s.nextMember_first owner).2] at hanswer
  rw [hanswer]
  simp [View.parsed, View.outcome, View.further, Cursor.shift_renumber]

/-! ## Bodies -/

/-- What is read from segment after segment, with the ids drawn so far. -/
def reads (owner : String) : NodeId → List Segment → List (Option ReadMember)
  | _, [] => []
  | n, s :: rest =>
    (s.read owner).map (·.shift (.renumber n)) :: reads owner (s.ids owner + n) rest

/-- The loop over members takes one segment at a time, each as if it stood alone. -/
theorem exists_collect (owner : String) (segments : List Segment) {closing : Token}
    (hclosing : closing.kind = .closeBrace) (rest : List Token) (stop : Token) (n : NodeId) :
    ∃ n', collect (nextMember owner) ⟨segments.flatMap all ++ closing :: rest, stop, n⟩ =
      ⟨.ok (reads owner n segments), segments.flatMap (·.reports owner),
        ⟨closing :: rest, stop, n'⟩⟩ := by
  induction segments generalizing n with
  | nil =>
    have hlast : Reads (nextMember owner) ⟨closing :: rest, stop, n⟩ none
        ⟨closing :: rest, stop, n⟩ := by
      refine Reads.kind.bind ?_
      rw [Cursor.kind_cons, hclosing]
      exact .pure
    exact ⟨n, collect_of_none (progresses_nextMember owner) hlast⟩
  | cons s segments ih =>
    obtain ⟨n', hrest⟩ := ih (s.ids owner + n)
    refine ⟨n', ?_⟩
    have hfirst := s.nextMember_eq owner (segments.flatMap all ++ closing :: rest) stop n
    have hall : (s :: segments).flatMap all ++ closing :: rest =
        s.tokens ++ s.semi :: (segments.flatMap all ++ closing :: rest) := by
      simp [all]
    rw [hall, collect_of_some (progresses_nextMember owner) hfirst, hrest]
    rfl

/-- Segments without errors have a member each. -/
theorem forall₂_reads (owner : String) {segments : List Segment}
    (h : ∀ s ∈ segments, s.reports owner = []) (n : NodeId) :
    segments.Forall₂ (fun s member => s.reports owner = [] ∧ ∃ read k,
      s.read owner = some read ∧ member = read.decl.shift (.renumber k))
      (((reads owner n segments).filterMap id).map (·.decl)) := by
  induction segments generalizing n with
  | nil => exact .nil
  | cons s segments ih =>
    have hrest := ih (fun s hs => h s (List.mem_cons_of_mem _ hs)) (s.ids owner + n)
    obtain ⟨read, hread⟩ : ∃ read, s.read owner = some read := by
      rw [← Option.ne_none_iff_exists']
      intro hnone
      exact (s.nextMember_first owner).1 hnone (h s List.mem_cons_self)
    have hreads : reads owner n (s :: segments) =
        some (read.shift (.renumber n)) :: reads owner (s.ids owner + n) segments := by
      rw [reads, hread, Option.map_some]
    rw [hreads]
    exact .cons ⟨h s List.mem_cons_self, read, n, hread, rfl⟩ hrest

end Segment

namespace ClassFrame

open BindingIdl.Parser InterfaceFile

variable (frame : ClassFrame)

/-- The tokens of a class with a body of segments. -/
def classTokens (segments : List Segment) : List Token :=
  frame.keyword :: frame.name :: frame.opening ::
    (segments.flatMap (·.all) ++ [frame.closing, frame.terminator])

/-- The tokens of a file with nothing but the class in it. -/
def around (segments : List Segment) : List Token := frame.classTokens segments ++ frame.ending

/-- The class in such a file, with the id it gets. -/
def decl (segments : List Segment) (n : NodeId) : ClassDecl :=
  ⟨n, frame.name.text, none,
    ((Segment.reads frame.name.text 0 segments).filterMap id).map (·.decl),
    frame.keyword.span.cover frame.closing.span⟩

/-- The errors of a body are those of its segments. -/
theorem exists_classBody (segments : List Segment) (stop : Token) : ∃ n,
    classBody ⟨false⟩ frame.keyword.span frame.name.text none
      ⟨frame.opening :: (segments.flatMap (·.all) ++ [frame.closing, frame.terminator]), stop, 0⟩ =
      ⟨.ok (frame.decl segments n), segments.flatMap (·.reports frame.name.text),
        ⟨[], stop, n + 1⟩⟩ := by
  obtain ⟨n, hcollect⟩ := Segment.exists_collect frame.name.text segments frame.closing_kind
    [frame.terminator] stop 0
  refine ⟨n, ?_⟩
  rw [classBody, (Reads.expect frame.opening_kind).bind_eq, bind_of_ok _ hcollect,
    Reads.take.bind_eq, (Reads.accept frame.terminator_kind).bind_eq]
  simp only [Bool.false_and, Bool.false_eq_true, if_false]
  rw [Reads.freshId.bind_eq, pure_apply, List.append_nil]
  rfl

/-- A class is read as the members of its segments, with the reports of each. -/
theorem exists_classItem (segments : List Segment) (stop : Token) : ∃ n,
    classItem ⟨false⟩ none ⟨frame.classTokens segments, stop, 0⟩ =
      ⟨.ok (some (.definition (frame.decl segments n))),
        segments.flatMap (·.reports frame.name.text), ⟨[], stop, n + 1⟩⟩ := by
  obtain ⟨n, hbody⟩ := frame.exists_classBody segments stop
  refine ⟨n, ?_⟩
  have hopening (k : TokenKind) (hk : k ≠ .openBrace) :
      (⟨frame.opening :: (segments.flatMap (·.all) ++ [frame.closing, frame.terminator]), stop,
        0⟩ : Cursor).kind ≠ k := by
    rw [Cursor.kind_cons, frame.opening_kind]
    exact hk.symm
  rw [classItem, classTokens, Reads.take.bind_eq, (Reads.expect frame.name_kind).bind_eq,
    Reads.kind.bind_eq, if_neg (hopening _ (by decide)), (Reads.require frame.name_upper).bind_eq,
    (Reads.accept_none (hopening _ (by decide))).bind_eq]
  refine (bind_of_ok _ hbody).trans ?_
  rw [pure_apply, List.append_nil]

theorem exists_nextItem (segments : List Segment) (body : Parser (List Item)) (stop : Token) :
    ∃ n, nextItem ⟨false⟩ false body ⟨frame.classTokens segments, stop, 0⟩ =
      ⟨.ok (some (some (.definition (frame.decl segments n)))),
        segments.flatMap (·.reports frame.name.text), ⟨[], stop, n + 1⟩⟩ := by
  obtain ⟨n, hclass⟩ := frame.exists_classItem segments stop
  refine ⟨n, ?_⟩
  have hkind : (⟨frame.classTokens segments, stop, 0⟩ : Cursor).kind = .classKeyword :=
    frame.keyword_kind
  have hitem : item ⟨false⟩ body ⟨frame.classTokens segments, stop, 0⟩ =
      classItem ⟨false⟩ none ⟨frame.classTokens segments, stop, 0⟩ := by
    have hinclude : Reads includeOverride ⟨frame.classTokens segments, stop, 0⟩ none
        ⟨frame.classTokens segments, stop, 0⟩ :=
      (Reads.accept_none (by rw [hkind]; decide)).bind .pure
    rw [item, hinclude.bind_eq, Reads.kind.bind_eq, hkind]
  have hattempt : attempt (item ⟨false⟩ body) ⟨frame.classTokens segments, stop, 0⟩ =
      ⟨.ok (.ok (some (.definition (frame.decl segments n)))),
        segments.flatMap (·.reports frame.name.text), ⟨[], stop, n + 1⟩⟩ := by
    rw [attempt, hitem, hclass]
  rw [nextItem, Reads.kind.bind_eq, hkind]
  refine (bind_of_ok _ hattempt).trans ?_
  simp only [pure_apply, List.append_nil]

/-- The end of the file is behind the class. -/
theorem kind_ne_endOfFile (segments : List Segment) :
    ∀ t ∈ frame.classTokens segments, t.kind ≠ .endOfFile := by
  intro t ht heof
  have hnot {u : Token} {k : TokenKind} (hu : u.kind = k) (hk : k ≠ .endOfFile) : t ≠ u := by
    rintro rfl
    exact hk (hu.symm.trans heof)
  have hframe : t ≠ frame.keyword ∧ t ≠ frame.name ∧ t ≠ frame.opening ∧ t ≠ frame.closing ∧
      t ≠ frame.terminator :=
    ⟨hnot frame.keyword_kind (by decide), hnot frame.name_kind (by decide),
      hnot frame.opening_kind (by decide), hnot frame.closing_kind (by decide),
      hnot frame.terminator_kind (by decide)⟩
  simp only [classTokens, List.mem_cons, List.mem_append, hframe, false_or, List.not_mem_nil,
    or_false] at ht
  obtain ⟨s, -, ht⟩ := List.mem_flatMap.mp ht
  obtain ht | ht := List.mem_append.mp ht
  · exact s.inside t ht (by simp [heof, limitKinds])
  · exact hnot s.semi_kind (by decide) (List.mem_singleton.mp ht)

/-- What is behind the end of the file is not looked at. -/
theorem exists_beginning (size : Nat) (segments : List Segment) : ∃ stop,
    (beginning size (frame.around segments)).upToEnd =
      ⟨frame.classTokens segments, stop, 0⟩ := by
  have hrest : (frame.around segments).takeWhile (·.kind ≠ .endOfFile) =
      frame.classTokens segments :=
    Lexeme.takeWhile_append_stop
      (fun t ht => decide_eq_true (frame.kind_ne_endOfFile segments t ht))
      fun t ht => decide_eq_false (not_not_intro (frame.ending_kind t ht))
  exact ⟨_, by rw [Cursor.upToEnd, beginning, hrest]⟩

/-- Such a file is read to its end, and its errors are those of the segments. -/
theorem exists_reading (size : Nat) (segments : List Segment) : ∃ n next,
    reading ⟨false⟩ size (frame.around segments) =
      ⟨.ok [.definition (frame.decl segments n)], segments.flatMap (·.reports frame.name.text),
        next⟩ := by
  obtain ⟨stop, hbeginning⟩ := frame.exists_beginning size segments
  obtain ⟨ahead, hahead⟩ : ∃ ahead, frame.classTokens segments = frame.keyword :: ahead := ⟨_, rfl⟩
  obtain ⟨n, hfirst⟩ := frame.exists_nextItem segments (itemsWithin ⟨false⟩ true ahead) stop
  have hlast : Reads (nextItem ⟨false⟩ false (itemsWithin ⟨false⟩ true ahead)) ⟨[], stop, n + 1⟩
      none ⟨[], stop, n + 1⟩ := Reads.kind.bind .pure
  have hprogress := progresses_nextItem ⟨false⟩ false (shrinks_itemsWithin ⟨false⟩ true ahead)
  have hcollect := collect_of_some hprogress hfirst
  rw [collect_of_none hprogress hlast, hahead] at hcollect
  have hrun : itemsWithin ⟨false⟩ false (frame.classTokens segments)
      ⟨frame.classTokens segments, stop, 0⟩ = ⟨.ok [.definition (frame.decl segments n)],
        segments.flatMap (·.reports frame.name.text), ⟨[], stop, n + 1⟩⟩ := by
    rw [hahead]
    refine (bind_of_ok _ hcollect).trans ?_
    simp [pure_apply]
  have hreading := reading_upToEnd ⟨false⟩ size (frame.around segments)
  rw [hbeginning, hrun] at hreading
  obtain ⟨houtcome, hreported, -⟩ := Parsed.mk.inj hreading
  exact ⟨n, (reading ⟨false⟩ size (frame.around segments)).next, by rw [houtcome, hreported]⟩

/-- The errors of the file are those of its segments in order: the frame has none. -/
theorem errors_around (size : Nat) (segments : List Segment) :
    errors ⟨false⟩ size (frame.around segments) =
      segments.flatMap (·.reports frame.name.text) := by
  obtain ⟨n, next, hreading⟩ := frame.exists_reading size segments
  rw [errors_eq, hreading, Parsed.errors, List.append_nil]

/-- Where no segment has an error, the file is its one class. -/
theorem exists_ofTokens (size : Nat) (segments : List Segment)
    (h : ∀ s ∈ segments, s.reports frame.name.text = []) : ∃ n, ofTokens ⟨false⟩ size
      (frame.around segments) = .ok ⟨[.definition (frame.decl segments n)]⟩ := by
  obtain ⟨n, next, hreading⟩ := frame.exists_reading size segments
  refine ⟨n, ?_⟩
  obtain ⟨items, hitems, -, hok⟩ | ⟨hne, -⟩ := ofTokens_cases ⟨false⟩ size (frame.around segments)
  · rw [hreading] at hitems
    cases hitems
    exact hok
  · rw [hreading, Parsed.errors, List.append_nil] at hne
    exact absurd (List.flatMap_eq_nil_iff.mpr h) hne

/-- Alone in the class, a segment that is read gives the one member of the class. -/
theorem exists_alone (size : Nat) {s : Segment} {read : ReadMember}
    (hreports : s.reports frame.name.text = []) (hread : s.read frame.name.text = some read) :
    ∃ alone, ofTokens ⟨false⟩ size (frame.around [s]) = .ok ⟨[.definition alone]⟩ ∧
      alone.members = [read.decl] := by
  have hall : ∀ u ∈ [s], u.reports frame.name.text = [] := by
    intro u hu
    rwa [List.mem_singleton.mp hu]
  obtain ⟨n, hok⟩ := frame.exists_ofTokens size [s] hall
  refine ⟨_, hok, ?_⟩
  rw [decl, Segment.reads, Segment.reads, hread]
  exact congrArg (fun member => [member]) (MemberDecl.shift_zero read.decl)

/-- Up to the numbers of the nodes, each segment has the errors and the member it would have if it
stood in the class alone. -/
theorem members_isolated (size : Nat) (segments : List Segment) :
    errors ⟨false⟩ size (frame.around segments) =
        segments.flatMap (fun s => errors ⟨false⟩ size (frame.around [s])) ∧
      (errors ⟨false⟩ size (frame.around segments) = [] → ∃ decl,
        ofTokens ⟨false⟩ size (frame.around segments) = .ok ⟨[.definition decl]⟩ ∧
        decl.name = frame.name.text ∧
        segments.Forall₂ (fun s member => ∃ alone own n,
          ofTokens ⟨false⟩ size (frame.around [s]) = .ok ⟨[.definition alone]⟩ ∧
          alone.members = [own] ∧ member = own.shift (.renumber n)) decl.members) := by
  refine ⟨?_, fun hnone => ?_⟩
  · simp only [errors_around, List.flatMap_cons, List.flatMap_nil, List.append_nil]
  · rw [errors_around, List.flatMap_eq_nil_iff] at hnone
    obtain ⟨n, hok⟩ := frame.exists_ofTokens size segments hnone
    refine ⟨frame.decl segments n, hok, rfl, ?_⟩
    refine (Segment.forall₂_reads frame.name.text hnone 0).imp ?_
    rintro s member ⟨hreports, read, k, hread, rfl⟩
    obtain ⟨alone, halone, hmembers⟩ := frame.exists_alone size hreports hread
    exact ⟨alone, read.decl, k, halone, hmembers, rfl⟩

/-- The class `Point` in a file of its own, up to its brace and from its closing brace on. -/
def pointFrame : ClassFrame where
  keyword := ⟨.classKeyword, "class", ⟨0, 5, 1⟩⟩
  name := ⟨.identifier, "Point", ⟨6, 11, 1⟩⟩
  opening := ⟨.openBrace, "\x7b", ⟨12, 13, 1⟩⟩
  closing := ⟨.closeBrace, "\x7d", ⟨47, 48, 5⟩⟩
  terminator := ⟨.semicolon, ";", ⟨48, 49, 5⟩⟩
  ending := [⟨.endOfFile, "", ⟨49, 49, 5⟩⟩]
  keyword_kind := rfl
  name_kind := rfl
  name_upper := rfl
  opening_kind := rfl
  closing_kind := rfl
  terminator_kind := rfl
  ending_kind := by decide

/-- The constructor `Point();`. -/
def constructorSegment : Segment where
  tokens := [⟨.identifier, "Point", ⟨14, 19, 2⟩⟩, ⟨.openParen, "(", ⟨19, 20, 2⟩⟩,
    ⟨.closeParen, ")", ⟨20, 21, 2⟩⟩]
  semi := ⟨.semicolon, ";", ⟨21, 22, 2⟩⟩
  semi_kind := rfl
  inside := by decide

/-- The tokens `int { f (;`, which are no member: they open a brace and a parenthesis and close
neither of them. -/
def brokenSegment : Segment where
  tokens := [⟨.identifier, "int", ⟨23, 26, 3⟩⟩, ⟨.openBrace, "\x7b", ⟨27, 28, 3⟩⟩,
    ⟨.identifier, "f", ⟨29, 30, 3⟩⟩, ⟨.openParen, "(", ⟨31, 32, 3⟩⟩]
  semi := ⟨.semicolon, ";", ⟨32, 33, 3⟩⟩
  semi_kind := rfl
  inside := by decide

/-- The method `void move();`. -/
def methodSegment : Segment where
  tokens := [⟨.identifier, "void", ⟨34, 38, 4⟩⟩, ⟨.identifier, "move", ⟨39, 43, 4⟩⟩,
    ⟨.openParen, "(", ⟨43, 44, 4⟩⟩, ⟨.closeParen, ")", ⟨44, 45, 4⟩⟩]
  semi := ⟨.semicolon, ";", ⟨45, 46, 4⟩⟩
  semi_kind := rfl
  inside := by decide

/-- The broken segment has its own error and no other, and without it both members are read. -/
theorem brokenSegment_isolated :
    errors ⟨false⟩ 49 (pointFrame.around [constructorSegment, brokenSegment, methodSegment]) =
        [⟨.unexpectedToken .methodName "`\x7b`", 3, ⟨27, 1⟩⟩] ∧
      errors ⟨false⟩ 49 (pointFrame.around [constructorSegment, brokenSegment, methodSegment]) =
        [constructorSegment, brokenSegment, methodSegment].flatMap
          (fun s => errors ⟨false⟩ 49 (pointFrame.around [s])) ∧
      ∃ decl, ofTokens ⟨false⟩ 49 (pointFrame.around [constructorSegment, methodSegment]) =
          .ok ⟨[.definition decl]⟩ ∧
        decl.name = "Point" ∧
        [constructorSegment, methodSegment].Forall₂ (fun s member => ∃ alone own n,
          ofTokens ⟨false⟩ 49 (pointFrame.around [s]) = .ok ⟨[.definition alone]⟩ ∧
          alone.members = [own] ∧ member = own.shift (.renumber n)) decl.members := by
  have herrors := (pointFrame.members_isolated 49
    [constructorSegment, brokenSegment, methodSegment]).1
  have hclean : errors ⟨false⟩ 49 (pointFrame.around [constructorSegment, methodSegment]) = [] :=
    rfl
  exact ⟨rfl, herrors,
    (pointFrame.members_isolated 49 [constructorSegment, methodSegment]).2 hclean⟩

end ClassFrame

end BindingIdl
