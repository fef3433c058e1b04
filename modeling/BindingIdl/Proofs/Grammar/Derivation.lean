import BindingIdl.Declaration.Grammar

/-!
# Derivations

The grammar of interface files as relations between tokens and trees, one relation for each
production and one constructor for each of its forms. Nothing here says how a list of tokens is
read: there is no lookahead, no recovery and no order in which forms are tried.

A relation `IsX n ts x n'` says that the tokens `ts`, all of them, are a construct of kind X whose
tree is `x`. Its nodes have the ids from `n` up to `n'`, children before their parent and the parts
of a construct in the order in which they are written. Spans run from the first token to the last,
where a production does not say otherwise.

The settings enter at one place: a class must not be `crowded` where one declaration per line is
asked for.
-/

namespace BindingIdl.Grammar

/-- The span from the first of some tokens to the last. -/
def spanOf : List Token → Span
  | [] => default
  | t :: ts => t.span.cover (ts.getLastD t).span

/-! ## Names and types -/

/-- `Ident (:: Ident)*`. -/
inductive IsName : List Token → QualifiedName → Prop where
  | bare {t} : t.kind = .identifier → IsName [t] (.bare t.text)
  | qualified {t colons ts q} : t.kind = .identifier → colons.kind = .doubleColon → IsName ts q →
      IsName (t :: colons :: ts) ⟨t.text :: q.namespaces, q.name⟩

/-- `[const]`. -/
inductive IsConst : List Token → Bool → Prop where
  | absent : IsConst [] false
  | present {t} : t.kind = .constKeyword → IsConst [t] true

/-- A name, or a name whose last segment is `shared_ptr` with another name in angle brackets. -/
inductive IsTypeHead : List Token → QualifiedName → Option QualifiedName → Prop where
  | plain {ts name} : IsName ts name → IsTypeHead ts name none
  | shared {ts us less greater wrapper name} : IsName ts wrapper → wrapper.name = pointerName →
      less.kind = .less → IsName us name → greater.kind = .greater →
      IsTypeHead (ts ++ less :: us ++ [greater]) name (some wrapper)

/-- `[& | *]`. -/
inductive IsIndirection : List Token → Indirection → Prop where
  | value : IsIndirection [] .value
  | reference {t} : t.kind = .ampersand → IsIndirection [t] .reference
  | pointer {t} : t.kind = .star → IsIndirection [t] .pointer

inductive IsType : NodeId → List Token → TypeExpr → NodeId → Prop where
  | mk {n cs hs ms isConst name wrapper indirection} : IsConst cs isConst →
      IsTypeHead hs name wrapper → IsIndirection ms indirection →
      IsType n (cs ++ hs ++ ms)
        ⟨n, isConst, name, wrapper, indirection, spanOf (cs ++ hs ++ ms)⟩ (n + 1)

/-! ## Members -/

/-- `type Ident`. -/
inductive IsParameter : NodeId → List Token → ParameterDecl → NodeId → Prop where
  | mk {n n' ts type name} : IsType n ts type n' → name.kind = .identifier →
      IsParameter n (ts ++ [name]) ⟨n', name.text, type⟩ (n' + 1)

/-- `param (, param)* [,]`. -/
inductive IsParameterList : NodeId → List Token → List ParameterDecl → NodeId → Prop where
  | last {n n' ts param} : IsParameter n ts param n' → IsParameterList n ts [param] n'
  | trailing {n n' ts comma param} : IsParameter n ts param n' → comma.kind = .comma →
      IsParameterList n (ts ++ [comma]) [param] n'
  | more {n n' m ts us comma param params} : IsParameter n ts param n' → comma.kind = .comma →
      IsParameterList n' us params m → IsParameterList n (ts ++ comma :: us) (param :: params) m

/-- A list of parameters in parentheses; it may be empty. -/
inductive IsParameters : NodeId → List Token → List ParameterDecl → NodeId → Prop where
  | none {n opening closing} : opening.kind = .openParen → closing.kind = .closeParen →
      IsParameters n [opening, closing] [] n
  | some {n n' ts opening closing params} : opening.kind = .openParen →
      IsParameterList n ts params n' → closing.kind = .closeParen →
      IsParameters n (opening :: ts ++ [closing]) params n'

/-- A member of class `owner`: a constructor, a method or a static method. -/
inductive IsMember (owner : String) : NodeId → List Token → ReadMember → NodeId → Prop where
  | constructor {n n' ps name semi params} : name.kind = .identifier → name.text = owner →
      IsParameters n ps params n' → semi.kind = .semicolon →
      IsMember owner n (name :: ps ++ [semi])
        ⟨.constructor ⟨n', params, spanOf (name :: ps ++ [semi])⟩, semi.span.line⟩ (n' + 1)
  | method {n n₁ n₂ ts ps cs name semi returns params isConst} : IsType n ts returns n₁ →
      name.kind = .identifier → startsLower name.text = true → IsParameters n₁ ps params n₂ →
      IsConst cs isConst → semi.kind = .semicolon →
      IsMember owner n (ts ++ name :: ps ++ cs ++ [semi])
        ⟨.method ⟨n₂, name.text, false, isConst, params, returns,
          spanOf (ts ++ name :: ps ++ cs ++ [semi])⟩, semi.span.line⟩ (n₂ + 1)
  | staticMethod {n n₁ n₂ ts ps mark name semi returns params} : mark.kind = .staticKeyword →
      IsType n ts returns n₁ → name.kind = .identifier → startsWithLetter name.text = true →
      IsParameters n₁ ps params n₂ → semi.kind = .semicolon →
      IsMember owner n (mark :: ts ++ name :: ps ++ [semi])
        ⟨.method ⟨n₂, name.text, true, false, params, returns,
          spanOf (mark :: ts ++ name :: ps ++ [semi])⟩, semi.span.line⟩ (n₂ + 1)

/-- `member*`. -/
inductive IsMembers (owner : String) : NodeId → List Token → List ReadMember → NodeId → Prop where
  | nil {n} : IsMembers owner n [] [] n
  | cons {n n' m ts us member members} : IsMember owner n ts member n' →
      IsMembers owner n' us members m → IsMembers owner n (ts ++ us) (member :: members) m

/-! ## Items -/

/-- `[#include <path>]`. -/
inductive IsOverride : List Token → Option IncludeOverride → Prop where
  | absent : IsOverride [] none
  | present {t} : t.kind = .includeLine →
      IsOverride [t] (some ⟨IncludeOverride.pathOf t.text, t.span⟩)

/-- `class Name;`. -/
inductive IsForward : NodeId → List Token → ForwardDecl → NodeId → Prop where
  | mk {n keyword name semi} : keyword.kind = .classKeyword → name.kind = .identifier →
      startsUpper name.text = true → semi.kind = .semicolon →
      IsForward n [keyword, name, semi] ⟨n, name.text, spanOf [keyword, name, semi]⟩ (n + 1)

/-- `class Name { member* };`. The span ends with the brace. -/
inductive IsClass (settings : GrammarSettings) :
    NodeId → List Token → ClassDecl → NodeId → Prop where
  | mk {n n' is ts keyword name opening closing semi override members} : IsOverride is override →
      keyword.kind = .classKeyword → name.kind = .identifier → startsUpper name.text = true →
      opening.kind = .openBrace → IsMembers name.text n ts members n' →
      closing.kind = .closeBrace → semi.kind = .semicolon →
      (settings.oneDeclarationPerLine = true → opening.span.line ≠ closing.span.line →
        crowded members = []) →
      IsClass settings n (is ++ [keyword, name, opening] ++ ts ++ [closing, semi])
        ⟨n', name.text, override, members.map (·.decl),
          spanOf ([keyword, name, opening] ++ ts ++ [closing])⟩ (n' + 1)

/-- The name of a namespace, if it has one. -/
inductive IsNamespaceName : List Token → Option String → Prop where
  | absent : IsNamespaceName [] none
  | present {t} : t.kind = .identifier → startsLower t.text = true →
      IsNamespaceName [t] (some t.text)

/-- What closes a namespace: a brace, or the end marker, behind which a name may stand on the same
line. -/
inductive IsClosing : List Token → Token → Option String → Prop where
  | brace {t} : t.kind = .closeBrace → IsClosing [t] t none
  | marker {t} : t.kind = .namespaceEnd → IsClosing [t] t none
  | named {t name} : t.kind = .namespaceEnd → name.kind = .identifier →
      name.span.line = t.span.line → IsClosing [t, name] t (some name.text)

mutual

/-- A namespace, a class or a forward declaration. The span of a namespace ends with the token that
closes it. -/
inductive IsItem (settings : GrammarSettings) : NodeId → List Token → Item → NodeId → Prop where
  | space {n n' is ns ts cs keyword opening closing override name closeName items} :
      IsOverride is override → keyword.kind = .namespaceKeyword → IsNamespaceName ns name →
      opening.kind = .openBrace → IsItems settings n ts items n' →
      IsClosing cs closing closeName →
      IsItem settings n (is ++ keyword :: ns ++ opening :: ts ++ cs)
        (.space ⟨n', name, override, closeName, keyword.span.cover closing.span⟩ items) (n' + 1)
  | definition {n n' ts decl} : IsClass settings n ts decl n' →
      IsItem settings n ts (.definition decl) n'
  | forward {n n' ts decl} : IsForward n ts decl n' → IsItem settings n ts (.forward decl) n'

/-- `item*`. -/
inductive IsItems (settings : GrammarSettings) :
    NodeId → List Token → List Item → NodeId → Prop where
  | nil {n} : IsItems settings n [] [] n
  | cons {n n' m ts us item items} : IsItem settings n ts item n' → IsItems settings n' us items m →
      IsItems settings n (ts ++ us) (item :: items) m

end

/-- The tokens of a file; ids start from zero. -/
def IsFile (settings : GrammarSettings) (ts : List Token) (file : InterfaceFile) : Prop :=
  ∃ n, IsItems settings 0 ts file.items n

end BindingIdl.Grammar
