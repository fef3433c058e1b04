import BindingIdl.Proofs.Module.Placement

/-!
# What becomes of a file

`Module.Keeps file m` says that the tree `m` holds what the file declares and nothing else. Each
class with a body stands in the tree once, under its own path, with the header that its place gives
it and with its members in order; each path that is only forward declared stands there once; and a
search by name finds every class of the tree.

`Module.ofText_keeps` is the statement for every text that is accepted.
-/

namespace BindingIdl

open Declaration

/-! ## Outlines -/

/-- The three forms a member has in an interface. -/
inductive MemberKind where
  | constructor
  | method
  | staticMethod
deriving DecidableEq, Repr, Inhabited

/-- A member without its types. -/
structure Outline where
  kind : MemberKind
  /-- Constructors have none of their own. -/
  name : Option String
  params : List String
  isConst : Bool
deriving DecidableEq, Repr, Inhabited

/-- The outline of a member as it is written. -/
def MemberDecl.outline : MemberDecl → Outline
  | constructor decl => ⟨.constructor, none, decl.params.map (·.name), false⟩
  | method decl => ⟨if decl.isStatic then .staticMethod else .method, some decl.name,
      decl.params.map (·.name), decl.isConst⟩

/-- The outline of a member as it is modelled. -/
def Member.outline : Member → Outline
  | constructor c => ⟨.constructor, none, c.args.map (·.name), false⟩
  | method m => ⟨.method, some m.name, m.args.map (·.name), m.isConst⟩
  | staticMethod m => ⟨.staticMethod, some m.name, m.args.map (·.name), false⟩

section

variable {T : TypePosition → TypeExpr → TypeRef → Prop}

theorem Argument.Lowers.names {params : List ParameterDecl} {args : List Argument}
    (h : List.Forall₂ (Argument.Lowers T) params args) :
    args.map (·.name) = params.map (·.name) := by
  induction h with
  | nil => rfl
  | cons harg _ ih => rw [List.map_cons, List.map_cons, harg.1, ih]

/-- Lowering changes types only. -/
theorem Member.Lowers.outline {d : MemberDecl} {m : Member} (h : Member.Lowers T d m)
    (hspelled : d.Spelled) : m.outline = d.outline := by
  cases h with
  | constructor hargs => rw [Member.outline, MemberDecl.outline, Argument.Lowers.names hargs]
  | method hstatic hargs =>
    rw [Member.outline, MemberDecl.outline, Argument.Lowers.names hargs, hstatic]
    rfl
  | staticMethod hstatic hargs =>
    -- a static method is never read as a constant one
    rw [Member.outline, MemberDecl.outline, Argument.Lowers.names hargs, hstatic,
      (hspelled.method _ rfl).constness hstatic]
    rfl

theorem Member.Lowers.outlines {ds : List MemberDecl} {ms : List Member}
    (h : List.Forall₂ (Member.Lowers T) ds ms) (hspelled : ∀ d ∈ ds, d.Spelled) :
    ms.map Member.outline = ds.map MemberDecl.outline := by
  induction h with
  | nil => rfl
  | cons hm _ ih =>
    rw [List.map_cons, List.map_cons, hm.outline (hspelled _ List.mem_cons_self),
      ih fun d hd => hspelled d (List.mem_cons_of_mem _ hd)]

end

/-! ## Classes -/

/-- The class keeps the place of its declaration, its header and its members in order. -/
structure Placement.Becomes (p : Placement) (c : Class) : Prop where
  path : c.path = p.path
  override : c.override = p.override
  header : c.header = p.header
  defined : c.forwardOnly = false
  members : c.members.map Member.outline = p.decl.members.map MemberDecl.outline

/-- A class that is classified stays in its place, with its members in order. -/
theorem Placement.becomes_of_classify {table : SymbolTable} {settings : CheckSettings}
    {p : Placement} {c : Class} (h : p.classify table settings = .ok c)
    (hspelled : p.decl.Spelled) : p.Becomes c := by
  have hlowers := Class.ofDecl_eq_ok_iff.mp h
  constructor
  case path => rw [Class.path, hlowers.name, hlowers.namespaces]; rfl
  case override => exact hlowers.override
  case header => exact hlowers.header
  case defined => exact hlowers.forwardOnly
  case members => exact Member.Lowers.outlines hlowers.members hspelled.members

/-! ## Modules -/

/-- The tree holds what the file declares, each class once. -/
structure Module.Keeps (file : InterfaceFile) (m : Module) : Prop where
  /-- The classes with a body, one for one. -/
  defined : ∃ cs, List.Forall₂ Placement.Becomes file.placements cs ∧ cs.Perm m.definedClasses
  /-- The stubs are the paths that are forward declared and not defined. -/
  forward : ∀ q, q ∈ m.forwardPaths ↔ q ∈ file.forwardPaths ∧ q ∉ file.definedPaths
  forward_nodup : m.forwardPaths.Nodup
  names : (m.allClasses.map Class.qualifiedName).Nodup
  lookup : ∀ c ∈ m.allClasses, m.lookup c.qualifiedName = some c

/-- The definitions of a file become the classes of its module, one for one. -/
theorem Compiled.definedClasses {settings : CheckSettings} {file : InterfaceFile}
    {table : SymbolTable} {m : Module} (h : Compiled settings file table m) :
    ∃ cs, List.Forall₂ Placement.Becomes file.placements cs ∧ cs.Perm m.definedClasses := by
  obtain ⟨cs, hcs, hperm⟩ := h.placed
  have hbecomes : List.Forall₂ Placement.Becomes file.placements cs := by
    refine forall₂_imp_of_mem hcs fun p hp c _ hc => Placement.becomes_of_classify hc ?_
    exact h.spelled.classes
      (InterfaceFile.mem_definitions_iff.mp (InterfaceFile.mem_definitions_of_placement hp)) rfl
  have hkept : cs.filter (!·.forwardOnly) = cs := by
    refine List.filter_eq_self.mpr fun c hc => ?_
    obtain ⟨p, -, hp⟩ := exists_of_forall₂ hbecomes hc
    rw [hp.defined]
    rfl
  have hdropped (qs : List QualifiedName) :
      (qs.map Class.stub).filter (!·.forwardOnly) = [] := by
    simp [Class.stub]
  have hfiltered := hperm.filter (!·.forwardOnly)
  rw [List.filter_append, hkept, hdropped, List.append_nil] at hfiltered
  exact ⟨cs, hbecomes, hfiltered⟩

theorem Compiled.keeps {settings : CheckSettings} {file : InterfaceFile} {table : SymbolTable}
    {m : Module} (h : Compiled settings file table m) : m.Keeps file where
  defined := h.definedClasses
  forward := h.forwardPaths_iff
  forward_nodup := by
    have hpaths : (m.allClasses.map Class.path).Nodup := h.canonical.distinct
    exact hpaths.sublist (List.filter_sublist.map _)
  names := h.names_nodup
  lookup c hc := (Module.lookup_eq_some_iff h.names_nodup).mpr ⟨hc, rfl⟩

/-- An accepted module holds what its text declares: no class is lost, doubled or misplaced. -/
theorem Module.ofText_keeps {settings : Settings} {text : String} {m : Module}
    (h : Module.ofText settings text = .ok m) :
    ∃ file, InterfaceFile.ofText settings.grammar text = .ok file ∧ m.Keeps file := by
  obtain ⟨file, hfile, hmodule⟩ := ofText_eq_ok_iff.mp h
  obtain ⟨table, hm⟩ := InterfaceFile.compiled_of_module hfile hmodule
  exact ⟨file, hfile, hm.keeps⟩

/-- In this text `Mesh` stays a stub of `geo`, which declares it in two openings. The stub of
`Point` gives way to the class in the anonymous namespace, which takes the header of `geo`; the
second opening of `geo` names none. -/
def reopenedText : String :=
  "#include <geo.h>\nnamespace geo \x7b\nclass Point;\nclass Mesh;\n" ++
  "namespace \x7b\nclass Point \x7b\ndouble norm() const;\n\x7d;\n\x7d\n\x7d\n" ++
  "namespace geo \x7b\nclass Mesh;\nclass Line \x7b\nstatic Line Of(Mesh m);\n\x7d;\n\x7d\n"

/-- What is read from that text: both openings of `geo`, the stub with the first of them. -/
def reopenedModule : Module :=
  let real : TypeRef := ⟨.primitive .double, .byRawValue, [], "double", none, false⟩
  let line : TypeRef := ⟨.classValue, .byValueCopy, ["geo"], "Line", some .declared, false⟩
  let mesh : TypeRef := ⟨.classValue, .byValueCopy, ["geo"], "Mesh", some .external, false⟩
  ⟨[⟨some "geo", ["geo"], some "geo.h",
      [⟨none, ["geo"], none, [],
        [⟨"Point", ["geo"], none, "geo.h", false, [.method ⟨"norm", [], real, true⟩]⟩]⟩],
      [.stub ⟨["geo"], "Mesh"⟩]⟩,
    ⟨some "geo", ["geo"], none, [],
      [⟨"Line", ["geo"], none, "Line.h", false, [.staticMethod ⟨"Of", [⟨"m", mesh⟩], line⟩]⟩]⟩],
   []⟩

theorem Module.reopenedModule_keeps :
    Module.ofText default reopenedText = .ok reopenedModule ∧
      ∃ file, InterfaceFile.ofText (default : Settings).grammar reopenedText = .ok file ∧
        reopenedModule.Keeps file := by
  have htext : Module.ofText default reopenedText = .ok reopenedModule :=
    Except.eq_ok_of_toOption (by decide +kernel)
  exact ⟨htext, ofText_keeps htext⟩

end BindingIdl
