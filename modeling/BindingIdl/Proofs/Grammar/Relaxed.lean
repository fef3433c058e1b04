import BindingIdl.Proofs.Grammar.Derivation

/-!
# Derivations with violations

The grammar once more, without the rules whose violation is reported and read over: any identifier
may name a namespace, a class or a method, a static method may be `const`, an include line may stand
wherever an item may, and a forward declaration may have a qualified name. What is derived comes
with the reports it owes, one for each rule that is broken.

An include line is an item of its own here, also where it overrides something. Whether it does is
decided by the shape of the item right behind it, and if not, the line is reported as dangling
(`danglingReports`). Types, parameters and what closes a namespace are those of the grammar proper.
-/

namespace BindingIdl.Grammar

/-- A rule that is broken owes one report. -/
def reportUnless (holds : Bool) (d : Diagnostic) : List Diagnostic := if holds then [] else [d]

/-! ## Members -/

/-- A member of class `owner` under any name, and what is wrong with it. -/
inductive IsLooseMember (owner : String) :
    NodeId → List Token → ReadMember → List Diagnostic → NodeId → Prop where
  | constructor {n n' ps name semi params} : name.kind = .identifier → name.text = owner →
      IsParameters n ps params n' → semi.kind = .semicolon →
      IsLooseMember owner n (name :: ps ++ [semi])
        ⟨.constructor ⟨n', params, spanOf (name :: ps ++ [semi])⟩, semi.span.line⟩ [] (n' + 1)
  | method {n n₁ n₂ ts ps cs name semi returns params isConst} : IsType n ts returns n₁ →
      name.kind = .identifier → IsParameters n₁ ps params n₂ → IsConst cs isConst →
      semi.kind = .semicolon →
      IsLooseMember owner n (ts ++ name :: ps ++ cs ++ [semi])
        ⟨.method ⟨n₂, name.text, false, isConst, params, returns,
          spanOf (ts ++ name :: ps ++ cs ++ [semi])⟩, semi.span.line⟩
        (reportUnless (startsLower name.text) (.about name.span (.methodName owner name.text)))
        (n₂ + 1)
  | staticMethod {n n₁ n₂ ts ps cs mark name semi returns params isConst} :
      mark.kind = .staticKeyword → IsType n ts returns n₁ → name.kind = .identifier →
      IsParameters n₁ ps params n₂ → IsConst cs isConst → semi.kind = .semicolon →
      IsLooseMember owner n (mark :: ts ++ name :: ps ++ cs ++ [semi])
        ⟨.method ⟨n₂, name.text, true, isConst, params, returns,
          spanOf (mark :: ts ++ name :: ps ++ cs ++ [semi])⟩, semi.span.line⟩
        (reportUnless (startsWithLetter name.text)
            (.about name.span (.staticMethodName owner name.text)) ++
          cs.map fun const => .about const.span (.constStaticMethod owner name.text))
        (n₂ + 1)

/-- `member*`. -/
inductive IsLooseMembers (owner : String) :
    NodeId → List Token → List ReadMember → List Diagnostic → NodeId → Prop where
  | nil {n} : IsLooseMembers owner n [] [] [] n
  | cons {n n' m ts us member members ds es} : IsLooseMember owner n ts member ds n' →
      IsLooseMembers owner n' us members es m →
      IsLooseMembers owner n (ts ++ us) (member :: members) (ds ++ es) m

/-! ## Classes -/

/-- Two members in a row, the second of which starts on the line where the `;` of the first one
stands. -/
def crowdedPairs (members : List ReadMember) : List (ReadMember × ReadMember) :=
  (members.zip members.tail).filter fun pair => pair.2.decl.span.line = pair.1.endLine

/-- Under settings that ask for one declaration per line, one report for each crowded pair of a
class with its braces on different lines. -/
def crowdingReports (settings : GrammarSettings) (owner : String) (opening closing : Token)
    (members : List ReadMember) : List Diagnostic :=
  if settings.oneDeclarationPerLine = true ∧ opening.span.line ≠ closing.span.line then
    (crowdedPairs members).map fun pair => .about pair.2.decl.span (.crowdedLine owner)
  else []

/-- `class Name { member* };` under any name. -/
inductive IsLooseClass (settings : GrammarSettings) :
    NodeId → List Token → List Diagnostic → NodeId → Prop where
  | mk {n n' ts keyword name opening closing semi members ds} : keyword.kind = .classKeyword →
      name.kind = .identifier → opening.kind = .openBrace →
      IsLooseMembers name.text n ts members ds n' → closing.kind = .closeBrace →
      semi.kind = .semicolon →
      IsLooseClass settings n ([keyword, name, opening] ++ ts ++ [closing, semi])
        (reportUnless (startsUpper name.text) (.about name.span (.className name.text)) ++ ds ++
          crowdingReports settings name.text opening closing members)
        (n' + 1)

/-! ## Items -/

/-- What an item looks like from outside. -/
inductive ItemShape where
  | includeLine
  | space
  | definition
  | forward
  | qualifiedForward
deriving DecidableEq, Repr

/-- Whether an include line right before the item belongs to it. -/
def ItemShape.takesOverride : ItemShape → Bool
  | space | definition | qualifiedForward => true
  | includeLine | forward => false

/-- What is owed for the include lines `is` in front of items of some shapes. -/
def danglingReports (is : List Token) (shapes : List ItemShape) : List Diagnostic :=
  if shapes.head?.any ItemShape.takesOverride then []
  else is.map fun line => .about line.span (.danglingInclude (IncludeOverride.pathOf line.text))

/-- The name of a namespace, if it has one. -/
inductive IsLooseNamespaceName : List Token → List Diagnostic → Prop where
  | absent : IsLooseNamespaceName [] []
  | present {t} : t.kind = .identifier →
      IsLooseNamespaceName [t]
        (reportUnless (startsLower t.text) (.about t.span (.namespaceName t.text)))

mutual

/-- A namespace, a class or a forward declaration under any name, also a qualified one. -/
inductive IsLooseItem (settings : GrammarSettings) :
    NodeId → List Token → ItemShape → List Diagnostic → NodeId → Prop where
  | space {n n' ns ts cs keyword opening closing closeName shapes ds es} :
      keyword.kind = .namespaceKeyword → IsLooseNamespaceName ns ds → opening.kind = .openBrace →
      IsLooseItems settings n ts shapes es n' → IsClosing cs closing closeName →
      IsLooseItem settings n (keyword :: ns ++ opening :: ts ++ cs) .space (ds ++ es) (n' + 1)
  | definition {n n' ts ds} : IsLooseClass settings n ts ds n' →
      IsLooseItem settings n ts .definition ds n'
  | forward {n keyword name semi} : keyword.kind = .classKeyword → name.kind = .identifier →
      semi.kind = .semicolon →
      IsLooseItem settings n [keyword, name, semi] .forward
        (reportUnless (startsUpper name.text) (.about name.span (.className name.text))) (n + 1)
  | qualifiedForward {n ts keyword semi path} : keyword.kind = .classKeyword → IsName ts path →
      path.isQualified = true → semi.kind = .semicolon →
      IsLooseItem settings n (keyword :: ts ++ [semi]) .qualifiedForward
        [⟨.qualifiedForward path, keyword.span.line, (keyword.span.cover semi.span).extent⟩] n

/-- `item*`, with include lines anywhere between. -/
inductive IsLooseItems (settings : GrammarSettings) :
    NodeId → List Token → List ItemShape → List Diagnostic → NodeId → Prop where
  | nil {n} : IsLooseItems settings n [] [] [] n
  | includeLine {n n' line ts shapes ds} : line.kind = .includeLine →
      IsLooseItems settings n ts shapes ds n' →
      IsLooseItems settings n (line :: ts) (.includeLine :: shapes)
        (danglingReports [line] shapes ++ ds) n'
  | cons {n n' m ts us shape shapes ds es} : IsLooseItem settings n ts shape ds n' →
      IsLooseItems settings n' us shapes es m →
      IsLooseItems settings n (ts ++ us) (shape :: shapes) (ds ++ es) m

end

/-- The tokens of a file and everything it is reported for. -/
def IsLooseFile (settings : GrammarSettings) (ts : List Token) (ds : List Diagnostic) : Prop :=
  ∃ shapes n, IsLooseItems settings 0 ts shapes ds n

end BindingIdl.Grammar
