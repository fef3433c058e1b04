import BindingIdl.Module.Printer
import BindingIdl.Proofs.Module.Canonical
import BindingIdl.Proofs.Printing.Pieces

/-!
# The layout of a printed module

The printer once more, with lines of pieces in place of text. For canonical modules the two agree
(`Module.toList_text`), and every line stands clear (`Module.lines_clear`), so the scanner reads a
printed module piece by piece.
-/

namespace BindingIdl

open Piece hiding space name header text tokens

/-! ## Pieces and lines -/

/-- The names of a path with `::` between them. -/
def QualifiedName.pieces (q : QualifiedName) : List Piece :=
  q.namespaces.foldr (fun space rest => .name space :: .fixed .doubleColon :: rest) [.name q.name]

/-- What stands in front of the name in a type. -/
def TypeKind.front : TypeKind → List Piece
  | classConstReference => [.fixed .constKeyword, .space]
  | sharedPointer => [.name "boost", .fixed .doubleColon, .name pointerName, .fixed .less]
  | primitive _ | eigenMatrix | eigenVector | classValue | rawPointer => []

/-- What stands behind the name in a type. -/
def TypeKind.back : TypeKind → List Piece
  | classConstReference => [.fixed .ampersand]
  | sharedPointer => [.fixed .greater]
  | rawPointer => [.fixed .star]
  | primitive _ | eigenMatrix | eigenVector | classValue => []

/-- A type with what shows how it is passed around its path. -/
def TypeRef.pieces (r : TypeRef) : List Piece := r.kind.front ++ r.path.pieces ++ r.kind.back

/-- The type and the name of an argument. -/
def Argument.pieces (a : Argument) : List Piece := a.type.pieces ++ [.space, .name a.name]

/-- Arguments with commas between them. -/
def Argument.separated : List Argument → List Piece
  | [] => []
  | [a] => a.pieces
  | a :: b :: rest => a.pieces ++ .fixed .comma :: .space :: separated (b :: rest)

/-- Arguments in their parentheses. -/
def Argument.listPieces (args : List Argument) : List Piece :=
  .fixed .openParen :: separated args ++ [.fixed .closeParen]

/-- What is printed of a member, as it would be declared in the class `owner`. -/
def Member.pieces (owner : String) : Member → List Piece
  | constructor c => .name owner :: Argument.listPieces c.args ++ [.fixed .semicolon]
  | method m => m.returns.pieces ++ .space :: .name m.name :: Argument.listPieces m.args
      ++ (if m.isConst then [.space, .fixed .constKeyword] else []) ++ [.fixed .semicolon]
  | staticMethod m => .fixed .staticKeyword :: .space :: m.returns.pieces
      ++ .space :: .name m.name :: Argument.listPieces m.args ++ [.fixed .semicolon]

/-- The line of a member. -/
def Member.line (owner : String) (m : Member) : List Piece := .space :: .space :: m.pieces owner

/-- The include line in front of a class or namespace, where there is one. -/
def overrideLines : Option String → List (List Piece)
  | none => []
  | some path => [[.header path]]

/-- A stub has a line, a class one for each member and two around them. -/
def Class.lines (c : Class) : List (List Piece) :=
  if c.forwardOnly then [[.fixed .classKeyword, .space, .name c.name, .fixed .semicolon]]
  else
    overrideLines c.override
      ++ [.fixed .classKeyword, .space, .name c.name, .space, .fixed .openBrace]
      :: c.members.map (·.line c.name) ++ [[.fixed .closeBrace, .fixed .semicolon]]

theorem Class.lines_ofForward (scope : List String) (decl : ForwardDecl) :
    (ofForward scope decl).lines =
      [[.fixed .classKeyword, .space, .name decl.name, .fixed .semicolon]] := rfl

theorem Class.lines_of_definition {c : Class} (h : c.forwardOnly = false) :
    c.lines = overrideLines c.override
      ++ [.fixed .classKeyword, .space, .name c.name, .space, .fixed .openBrace]
      :: c.members.map (·.line c.name) ++ [[.fixed .closeBrace, .fixed .semicolon]] := by
  rw [lines, if_neg (by rw [h]; decide)]

/-- A blank and a name, or nothing for what has none. -/
def spacedPieces : Option String → List Piece
  | none => []
  | some name => [.space, .name name]

mutual

/-- A namespace is printed with its classes first, and closed by its end marker and name. -/
def Namespace.lines : Namespace → List (List Piece)
  | ⟨name, _, override, namespaces, classes⟩ =>
    overrideLines override
      ++ (.fixed .namespaceKeyword :: spacedPieces name ++ [.space, .fixed .openBrace])
      :: classes.flatMap Class.lines ++ Namespace.linesOfAll namespaces
      ++ [.fixed .namespaceEnd :: spacedPieces name]

/-- The namespaces of one level, one behind the other. -/
def Namespace.linesOfAll : List Namespace → List (List Piece)
  | [] => []
  | space :: rest => space.lines ++ Namespace.linesOfAll rest

end

/-- The lines of a module: the classes at the root, then its namespaces. -/
def Module.lines (m : Module) : List (List Piece) :=
  m.classes.flatMap Class.lines ++ Namespace.linesOfAll m.namespaces

/-! ## The text -/

theorem QualifiedName.spelled_pieces (q : QualifiedName) : spelled q.pieces = q.text.toList := by
  obtain ⟨spaces, name⟩ := q
  induction spaces with
  | nil => exact List.append_nil _
  | cons s spaces ih =>
    rw [toList_text_cons, ← ih]
    rfl

/-- How a builtin is written. -/
def Builtin.spelling : Builtin → String
  | string => "string"
  | bool => "bool"
  | size => "size_t"
  | int => "int"
  | double => "double"
  | char => "char"
  | void => "void"
  | matrix => "Matrix"
  | vector => "Vector"

/-- A name that means a builtin is the spelling of it. -/
theorem Builtin.eq_spelling {s : String} {b : Builtin} (h : ofName? s = some b) :
    s = b.spelling := by
  unfold ofName? at h
  split at h <;> cases h <;> rfl

/-- The pieces of a type spell its text. Only the spelling of a builtin has to be looked at. -/
theorem TypeRef.Canonical.spelled_pieces {position : TypePosition} {r : TypeRef}
    (h : r.Canonical position) : spelled r.pieces = r.text.toList := by
  rw [pieces, spelled_append, spelled_append, QualifiedName.spelled_pieces]
  cases h with
  | @builtin b s hb =>
    obtain rfl := Builtin.eq_spelling hb
    cases b <;> rfl
  | @reference type wrapped reference hw =>
    have hkind := classWrapping_isClass hw
    unfold text
    cases hk : wrapped.kind <;> simp [hk, TypeKind.isClass] at hkind <;>
      simp [ofReference, hk, TypeKind.front, TypeKind.back, path, qualifiedName, pointerName,
        Piece.name, fixed, chars, TokenKind.describe]

theorem Argument.Canonical.spelled_pieces {a : Argument} (h : a.Canonical) :
    spelled a.pieces = (a.type.text ++ " " ++ a.name).toList := by
  simp [pieces, h.type.spelled_pieces, chars, Piece.name]

theorem Argument.spelled_separated {args : List Argument} (h : ∀ a ∈ args, a.Canonical) :
    spelled (separated args) =
      (", ".intercalate (args.map fun arg => arg.type.text ++ " " ++ arg.name)).toList := by
  induction args using separated.induct with
  | case1 => rfl
  | case2 a =>
    rw [separated, (h a List.mem_cons_self).spelled_pieces]
    rfl
  | case3 a b rest ih =>
    have hrest := ih fun a' ha' => h a' (List.mem_cons_of_mem _ ha')
    rw [List.map_cons] at hrest
    rw [separated, spelled_append, (h a List.mem_cons_self).spelled_pieces, spelled_cons,
      spelled_cons, hrest, List.map_cons, List.map_cons, String.intercalate_cons_cons]
    simp [fixed, chars, TokenKind.describe]

theorem Argument.spelled_listPieces {args : List Argument} (h : ∀ a ∈ args, a.Canonical) :
    spelled (listPieces args) = (listText args).toList := by
  simp [listPieces, listText, spelled_separated h, fixed, chars, TokenKind.describe]

theorem Member.Canonical.spelled_pieces {m : Member} (h : m.Canonical) (owner : String) :
    spelled (m.pieces owner) = (m.text owner).toList := by
  cases h with
  | constructor hargs =>
    simp [Member.pieces, Member.text, Argument.spelled_listPieces hargs, Piece.name, fixed, chars,
      TokenKind.describe]
  | @method name args returns isConst _ _ hargs hreturns =>
    cases isConst <;>
      simp [Member.pieces, Member.text, Argument.spelled_listPieces hargs, hreturns.spelled_pieces,
        Piece.name, fixed, chars, TokenKind.describe]
  | staticMethod _ _ hargs hreturns =>
    simp [Member.pieces, Member.text, Argument.spelled_listPieces hargs, hreturns.spelled_pieces,
      Piece.name, fixed, chars, TokenKind.describe]

theorem text_overrideLines (override : Option String) :
    Piece.text (overrideLines override) = (overrideText override).toList := by
  cases override <;> simp [overrideLines, overrideText, Piece.header, chars]

theorem Member.text_lines {members : List Member} (h : ∀ m ∈ members, m.Canonical)
    (owner : String) : Piece.text (members.map (·.line owner)) =
      (String.join (members.map fun m => "  " ++ m.text owner ++ "\n")).toList := by
  induction members with
  | nil => rfl
  | cons m members ih =>
    rw [List.map_cons, text_cons, ih fun m' hm' => h m' (List.mem_cons_of_mem _ hm'), line,
      spelled_cons, spelled_cons, (h m List.mem_cons_self).spelled_pieces, List.map_cons,
      String.join_cons]
    simp [chars]

theorem Class.Canonical.text_lines {scope : List String} {inherited : Option String} {c : Class}
    (h : c.Canonical scope inherited) : Piece.text c.lines = c.text.toList := by
  cases h with
  | forward =>
    simp [Class.lines, Class.text, Class.ofForward, Piece.name, fixed, chars, TokenKind.describe]
  | definition _ _ _ hmembers =>
    simp [Class.lines, Class.text, text_overrideLines, Member.text_lines hmembers, Piece.name,
      fixed, chars, TokenKind.describe]

theorem Class.text_allLines {scope : List String} {inherited : Option String} {cs : List Class}
    (h : ∀ c ∈ cs, c.Canonical scope inherited) :
    Piece.text (cs.flatMap Class.lines) = (String.join (cs.map Class.text)).toList := by
  induction cs with
  | nil => rfl
  | cons c cs ih =>
    rw [List.flatMap_cons, text_append, (h c List.mem_cons_self).text_lines,
      ih fun c' hc' => h c' (List.mem_cons_of_mem _ hc'), List.map_cons, String.join_cons,
      String.toList_append]

theorem Namespace.text_mk (name : Option String) (path : List String) (override : Option String)
    (namespaces : List Namespace) (classes : List Class) :
    Namespace.text ⟨name, path, override, namespaces, classes⟩ =
      overrideText override ++ "namespace" ++ name.elim "" (" " ++ ·) ++ " \x7b\n"
        ++ String.join (classes.map Class.text) ++ Namespace.textOfAll namespaces
        ++ "\x7d///\\namespace" ++ name.elim "" (" " ++ ·) ++ "\n" := by
  cases name <;> rfl

theorem spelled_spacedPieces (name : Option String) :
    spelled (spacedPieces name) = (name.elim "" (" " ++ ·)).toList := by
  cases name <;> simp [spacedPieces, Piece.name, chars]

/-- The lines of the namespaces are their text, by induction on the tree. -/
theorem Namespace.AllCanonical.text_linesOfAll {scope : List String} {inherited : Option String}
    {spaces : List Namespace} (h : AllCanonical scope inherited spaces) :
    Piece.text (linesOfAll spaces) = (textOfAll spaces).toList := by
  induction h with
  | nil => rfl
  | cons _ _ _ hclasses _ ih ihrest =>
    rw [linesOfAll, text_append, ihrest, textOfAll, String.toList_append, text_mk]
    simp [lines, ih, text_overrideLines, Class.text_allLines hclasses, spelled_spacedPieces, fixed,
      chars, TokenKind.describe]

/-- The text of a module is that of its lines. -/
theorem Module.Canonical.toList_text {m : Module} (h : m.Canonical) :
    m.text.toList = Piece.text m.lines := by
  rw [text, lines, text_append, Class.text_allLines h.classes, h.namespaces.text_linesOfAll,
    String.toList_append]

/-! ## Every line stands clear -/

theorem QualifiedName.Wellformed.stand {q : QualifiedName} (h : q.Wellformed) {rest : List Char}
    (hrest : EndsWord rest) : AllStand rest q.pieces := by
  obtain ⟨spaces, name⟩ := q
  rw [wellformed_mk_iff] at h
  induction spaces with
  | nil => exact ⟨stands_name h.2 hrest, trivial⟩
  | cons s spaces ih =>
    refine ⟨stands_name (h.1 s List.mem_cons_self) (endsWord_cons rfl _),
      stands_mark rfl _, ih ⟨fun t ht => h.1 t (List.mem_cons_of_mem _ ht), h.2⟩⟩

theorem TypeRef.Canonical.wellformed {position : TypePosition} {r : TypeRef}
    (h : r.Canonical position) : r.path.Wellformed := by
  cases h with
  | @builtin b s hb =>
    obtain rfl := Builtin.eq_spelling hb
    cases b <;> decide
  | reference _ hwell => exact hwell

/-- Each piece of a type is read as one token in front of what follows it. -/
theorem TypeRef.Canonical.stand {position : TypePosition} {r : TypeRef}
    (h : r.Canonical position) {rest : List Char} (hrest : EndsWord rest) :
    AllStand rest r.pieces := by
  have hback : EndsWord (spelled r.kind.back ++ rest) ∧ AllStand rest r.kind.back := by
    cases r.kind <;> first
      | exact ⟨hrest, trivial⟩
      | exact ⟨endsWord_cons rfl _, stands_mark rfl _, trivial⟩
  have hfront (more : List Char) : AllStand more r.kind.front := by
    cases r.kind with
    | classConstReference =>
      exact ⟨stands_keyword rfl (endsWord_cons rfl _), trivial, trivial⟩
    | sharedPointer =>
      exact ⟨stands_name (by decide) (endsWord_cons rfl _), stands_mark rfl _,
        stands_name (by decide) (endsWord_cons rfl _), stands_mark rfl _, trivial⟩
    | _ => trivial
  rw [pieces, allStand_append_iff, allStand_append_iff]
  exact ⟨⟨hfront _, h.wellformed.stand hback.1⟩, hback.2⟩

theorem Argument.Canonical.stand {a : Argument} (h : a.Canonical) {rest : List Char}
    (hrest : EndsWord rest) : AllStand rest a.pieces := by
  rw [pieces, allStand_append_iff]
  exact ⟨h.type.stand (endsWord_cons rfl _), trivial, stands_name h.name hrest, trivial⟩

/-- A comma ends the word in front of it. -/
theorem Argument.stand_separated {args : List Argument} (h : ∀ a ∈ args, a.Canonical)
    {rest : List Char} (hrest : EndsWord rest) : AllStand rest (separated args) := by
  induction args using separated.induct with
  | case1 => trivial
  | case2 a => exact (h a List.mem_cons_self).stand hrest
  | case3 a b more ih =>
    rw [separated, allStand_append_iff]
    exact ⟨(h a List.mem_cons_self).stand (endsWord_cons rfl _), stands_mark rfl _,
      trivial, ih fun a' ha' => h a' (List.mem_cons_of_mem _ ha')⟩

theorem Argument.stand_listPieces {args : List Argument} (h : ∀ a ∈ args, a.Canonical)
    (rest : List Char) : AllStand rest (listPieces args) := by
  have hclose : AllStand rest [.fixed .closeParen] := ⟨stands_mark rfl _, trivial⟩
  refine ⟨stands_mark rfl _, allStand_append_iff.mpr ⟨?_, hclose⟩⟩
  exact stand_separated h (endsWord_cons rfl _)

/-- A member stands in front of anything, since it ends with a `;`. -/
theorem Member.Canonical.stand {m : Member} (h : m.Canonical) {owner : String}
    (howner : isIdentifier owner = true) (rest : List Char) : AllStand rest (m.pieces owner) := by
  have hsemi : AllStand rest [.fixed .semicolon] := ⟨stands_mark rfl _, trivial⟩
  cases h with
  | constructor hargs =>
    exact ⟨stands_name howner (endsWord_cons rfl _),
      allStand_append_iff.mpr ⟨Argument.stand_listPieces hargs _, hsemi⟩⟩
  | @method name args returns isConst hname _ hargs hreturns =>
    have hconst : AllStand (';' :: rest)
        (if isConst then [.space, .fixed .constKeyword] else []) := by
      cases isConst with
      | true => exact ⟨trivial, stands_keyword rfl (endsWord_cons rfl _), trivial⟩
      | false => trivial
    rw [Member.pieces, allStand_append_iff, allStand_append_iff, allStand_append_iff]
    refine ⟨⟨⟨hreturns.stand (endsWord_cons rfl _), trivial, ?_, ?_⟩, hconst⟩, hsemi⟩
    · exact stands_name hname (endsWord_cons rfl _)
    · exact Argument.stand_listPieces hargs _
  | @staticMethod name args returns hname _ hargs hreturns =>
    have hmore : AllStand (';' :: rest) (returns.pieces ++ .space :: .name name ::
        Argument.listPieces args) := by
      refine allStand_append_iff.mpr ⟨hreturns.stand (endsWord_cons rfl _), trivial, ?_, ?_⟩
      · exact stands_name hname (endsWord_cons rfl _)
      · exact Argument.stand_listPieces hargs _
    rw [Member.pieces, allStand_append_iff]
    exact ⟨⟨stands_keyword rfl (endsWord_cons rfl _), trivial, hmore⟩, hsemi⟩

theorem Member.Canonical.clear {m : Member} (h : m.Canonical) {owner : String}
    (howner : isIdentifier owner = true) : Clear (m.line owner) :=
  fun _ => ⟨trivial, trivial, h.stand howner _⟩

theorem clear_overrideLines {override : Option String} (h : ∀ path ∈ override, IsHeaderPath path) :
    ∀ line ∈ overrideLines override, Clear line := by
  cases override with
  | none => exact fun line hline => absurd hline List.not_mem_nil
  | some path =>
    intro line hline _
    obtain rfl := List.mem_singleton.mp hline
    exact ⟨stands_header (h path rfl) _, trivial⟩

/-- The line that opens a class. -/
theorem clear_opening {name : String} (h : isIdentifier name = true) :
    Clear [.fixed .classKeyword, .space, .name name, .space, .fixed .openBrace] :=
  fun _ => ⟨stands_keyword rfl (endsWord_cons rfl _), trivial,
    stands_name h (endsWord_cons rfl _), trivial, stands_mark rfl _, trivial⟩

/-- Each line of a class is read piece by piece. -/
theorem Class.Canonical.clear {scope : List String} {inherited : Option String} {c : Class}
    (h : c.Canonical scope inherited) : ∀ line ∈ c.lines, Clear line := by
  intro line hline
  cases h with
  | forward hspelled =>
    obtain rfl := List.mem_singleton.mp hline
    exact fun _ => ⟨stands_keyword rfl (endsWord_cons rfl _), trivial,
      stands_name hspelled.1 (endsWord_cons rfl _), stands_mark rfl _, trivial⟩
  | @definition name override members hname _ hoverride hmembers =>
    simp only [Class.lines, Bool.false_eq_true, if_false, List.mem_append, List.mem_cons,
      List.mem_map, List.not_mem_nil, or_false] at hline
    rcases hline with (hline | rfl | ⟨m, hm, rfl⟩) | rfl
    · exact clear_overrideLines hoverride line hline
    · exact clear_opening hname
    · exact (hmembers m hm).clear hname
    · exact fun rest => ⟨stands_closeBrace _, stands_mark rfl _, trivial⟩

/-- A name behind a blank stands if no word goes on behind it, and nothing needs no room. -/
theorem stand_spacedPieces {name : Option String}
    (h : ∀ n ∈ name, isIdentifier n = true ∧ startsLower n = true) {rest : List Char}
    (hrest : EndsWord rest) :
    AllStand rest (spacedPieces name) ∧ EndsWord (spelled (spacedPieces name) ++ rest) := by
  cases name with
  | none => exact ⟨trivial, hrest⟩
  | some n => exact ⟨⟨trivial, stands_name (h n rfl).1 hrest, trivial⟩, endsWord_cons rfl _⟩

/-- The lines that open and close a namespace. -/
theorem clear_namespace {name : Option String}
    (h : ∀ n ∈ name, isIdentifier n = true ∧ startsLower n = true) :
    Clear (.fixed .namespaceKeyword :: spacedPieces name ++ [.space, .fixed .openBrace]) ∧
      Clear (.fixed .namespaceEnd :: spacedPieces name) := by
  constructor
  · intro rest
    have hbrace : AllStand ('\n' :: rest) [.space, .fixed .openBrace] :=
      ⟨trivial, stands_mark rfl _, trivial⟩
    obtain ⟨hstand, hends⟩ := stand_spacedPieces h
      (endsWord_cons (c := ' ') rfl ('\x7b' :: '\n' :: rest))
    refine ⟨stands_keyword rfl ?_, allStand_append_iff.mpr ⟨hstand, hbrace⟩⟩
    show EndsWord (spelled (spacedPieces name ++ [.space, .fixed .openBrace]) ++ '\n' :: rest)
    rwa [spelled_append, List.append_assoc]
  · intro rest
    exact ⟨stands_mark rfl _, (stand_spacedPieces h (endsWord_cons rfl _)).1⟩

/-- Each line of the namespaces is read piece by piece, the end markers too. -/
theorem Namespace.AllCanonical.clear {scope : List String} {inherited : Option String}
    {spaces : List Namespace} (h : AllCanonical scope inherited spaces) :
    ∀ line ∈ linesOfAll spaces, Clear line := by
  induction h with
  | nil => exact fun line hline => absurd hline List.not_mem_nil
  | cons hname hoverride _ hclasses _ ih ihrest =>
    intro line hline
    rw [linesOfAll, List.mem_append] at hline
    obtain hline | hline := hline
    · simp only [Namespace.lines, List.mem_append, List.mem_cons, List.not_mem_nil, or_false,
        List.mem_flatMap] at hline
      rcases hline with ((hline | rfl | ⟨c, hc, hline⟩) | hline) | rfl
      · exact clear_overrideLines hoverride line hline
      · exact (clear_namespace hname).1
      · exact (hclasses c hc).clear line hline
      · exact ih line hline
      · exact (clear_namespace hname).2
    · exact ihrest line hline

theorem Module.Canonical.lines_clear {m : Module} (h : m.Canonical) :
    ∀ line ∈ m.lines, Clear line := by
  intro line hline
  obtain hline | hline := List.mem_append.mp hline
  · obtain ⟨c, hc, hline⟩ := List.mem_flatMap.mp hline
    exact (h.classes c hc).clear line hline
  · exact h.namespaces.clear line hline

/-- The scanner reads a printed module piece by piece. -/
theorem Module.Canonical.tokens_text {m : Module} (h : m.Canonical) :
    Token.ofText m.text = .ok (allTokens .origin m.lines ++ [Token.endOf m.text]) :=
  ofText_lines h.toList_text h.lines_clear

end BindingIdl
