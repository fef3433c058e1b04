import BindingIdl.Proofs.Grammar.Soundness

/-!
# The numbers of nodes

The nodes of a tree in the order in which they are finished: children before their parent, and the
parts of a construct in the order in which they are written. `InterfaceFile.nodes` lists their ids.
In a tree that the grammar derives these are the numbers from zero on without a gap
(`Grammar.IsItems.numbers`), so their number is also the first id that is free behind them. The tree
that is read from tokens is such a tree (`InterfaceFile.nodes_eq_range`).
-/

namespace BindingIdl

/-! ## Nodes -/

/-- A parameter is finished behind its type. -/
def ParameterDecl.nodes (param : ParameterDecl) : List NodeId := [param.type.id, param.id]

/-- A method has a type in front of its parameters, a constructor has none. -/
def MemberDecl.nodes : MemberDecl → List NodeId
  | constructor decl => decl.params.flatMap ParameterDecl.nodes ++ [decl.id]
  | method decl => decl.returns.id :: decl.params.flatMap ParameterDecl.nodes ++ [decl.id]

/-- A class is finished behind its members; an include line is no node. -/
def ClassDecl.nodes (decl : ClassDecl) : List NodeId :=
  decl.members.flatMap MemberDecl.nodes ++ [decl.id]

mutual

/-- The ids of the nodes of an item. A block takes its id at its end marker, behind all that is
inside. -/
def Item.nodes : Item → List NodeId
  | .space head items => Item.allNodes items ++ [head.id]
  | .definition decl => decl.nodes
  | .forward decl => [decl.id]

/-- The ids of all nodes in a list of items, each behind those of its parts. -/
def Item.allNodes : List Item → List NodeId
  | [] => []
  | item :: rest => item.nodes ++ Item.allNodes rest

end

/-- The ids of all nodes of a file in the order in which they are finished. -/
def InterfaceFile.nodes (file : InterfaceFile) : List NodeId := Item.allNodes file.items

/-! ## Numbers without a gap -/

/-- The ids are the numbers from `n` on, and `n'` is the next one. -/
structure Numbers (n : Nat) (ids : List Nat) (n' : Nat) : Prop where
  all : ids = List.range' n ids.length
  next : n' = n + ids.length

namespace Numbers

variable {n m n' : Nat} {ids is : List Nat}

theorem nil (n : Nat) : Numbers n [] n := ⟨rfl, rfl⟩

theorem single (n : Nat) : Numbers n [n] (n + 1) := ⟨rfl, rfl⟩

/-- Two stretches of numbers join where the first one stops. -/
theorem append (h : Numbers n ids m) (h' : Numbers m is n') : Numbers n (ids ++ is) n' where
  all := by
    have hall := h'.all
    rw [h.next] at hall
    rw [List.length_append, ← List.range'_append_1, ← h.all, ← hall]
  next := by
    rw [h'.next, h.next, List.length_append, Nat.add_assoc]

/-- The parent behind its parts. -/
theorem concat (h : Numbers n ids n') : Numbers n (ids ++ [n']) (n' + 1) := h.append (.single n')

end Numbers

/-! ## What is derived is numbered -/

namespace Grammar

variable {n n' : NodeId} {ts : List Token}

theorem IsType.numbers {type : TypeExpr} (h : IsType n ts type n') : Numbers n [type.id] n' := by
  cases h
  exact .single n

/-- One number for the type, the next for the parameter. -/
theorem IsParameter.numbers {param : ParameterDecl} (h : IsParameter n ts param n') :
    Numbers n param.nodes n' := by
  cases h with
  | mk htype => exact htype.numbers.concat

theorem IsParameterList.numbers {params : List ParameterDecl} (h : IsParameterList n ts params n') :
    Numbers n (params.flatMap ParameterDecl.nodes) n' := by
  induction h with
  | last hparam => simpa using hparam.numbers
  | trailing hparam => simpa using hparam.numbers
  | more hparam _ _ ih => exact hparam.numbers.append ih

theorem IsParameters.numbers {params : List ParameterDecl} (h : IsParameters n ts params n') :
    Numbers n (params.flatMap ParameterDecl.nodes) n' := by
  cases h with
  | none => exact .nil n
  | some _ hlist => exact hlist.numbers

/-- A member takes its number behind those of its signature. -/
theorem IsMember.numbers {owner : String} {read : ReadMember} (h : IsMember owner n ts read n') :
    Numbers n read.decl.nodes n' := by
  cases h with
  | constructor _ _ hparams => exact hparams.numbers.concat
  | method htype _ _ hparams => exact (htype.numbers.append hparams.numbers).concat
  | staticMethod _ htype _ _ hparams => exact (htype.numbers.append hparams.numbers).concat

theorem IsMembers.numbers {owner : String} {members : List ReadMember}
    (h : IsMembers owner n ts members n') :
    Numbers n ((members.map (·.decl)).flatMap MemberDecl.nodes) n' := by
  induction h with
  | nil => exact .nil _
  | cons hmember _ ih => exact hmember.numbers.append ih

/-- A class takes its number behind those of its members, whether or not an include line stands in
front. -/
theorem IsClass.numbers {settings : GrammarSettings} {decl : ClassDecl}
    (h : IsClass settings n ts decl n') : Numbers n decl.nodes n' := by
  cases h with
  | mk _ _ _ _ _ hmembers => exact hmembers.numbers.concat

/-- Items are numbered in order, each namespace behind what is in it. -/
theorem IsItems.numbers {settings : GrammarSettings} {items : List Item}
    (h : IsItems settings n ts items n') : Numbers n (Item.allNodes items) n' := by
  induction items using Item.induction generalizing n ts n' with
  | nil =>
    cases h
    exact .nil n
  | space head items rest ih ihrest =>
    cases h with
    | cons hitem hitems =>
      cases hitem with
      | space _ _ _ _ hinner => exact (ih hinner).concat.append (ihrest hitems)
  | definition decl rest ih =>
    cases h with
    | cons hitem hitems =>
      cases hitem with
      | definition hclass => exact hclass.numbers.append (ih hitems)
  | forward decl rest ih =>
    cases h with
    | cons hitem hitems =>
      cases hitem with
      | forward hforward =>
        cases hforward
        exact (Numbers.single n).append (ih hitems)

end Grammar

/-! ## What is read is numbered -/

/-- No id is lost and none is given twice, whatever was tried and given up on the way to a tree. As
long as there are fewer than 2 ^ 32 nodes, every id fits into 32 bits. -/
theorem InterfaceFile.nodes_eq_range {settings : GrammarSettings} {size : Nat}
    {tokens : List Token} {file : InterfaceFile} (h : ofTokens settings size tokens = .ok file) :
    file.nodes = List.range file.nodes.length := by
  obtain ⟨next, hitems⟩ := Grammar.isFile_of_ofTokens h
  rw [List.range_eq_range']
  exact hitems.numbers.all

/-- A namespace with a forward declaration and a class in it, whose method has one parameter: every
kind of node but a constructor. -/
def spacedTokens : List Token :=
  [⟨.namespaceKeyword, "namespace", ⟨0, 9, 1⟩⟩, ⟨.identifier, "n", ⟨10, 11, 1⟩⟩,
    ⟨.openBrace, "\x7b", ⟨12, 13, 1⟩⟩, ⟨.classKeyword, "class", ⟨14, 19, 2⟩⟩,
    ⟨.identifier, "A", ⟨20, 21, 2⟩⟩, ⟨.semicolon, ";", ⟨21, 22, 2⟩⟩,
    ⟨.classKeyword, "class", ⟨23, 28, 3⟩⟩, ⟨.identifier, "B", ⟨29, 30, 3⟩⟩,
    ⟨.openBrace, "\x7b", ⟨31, 32, 3⟩⟩, ⟨.identifier, "A", ⟨33, 34, 4⟩⟩,
    ⟨.identifier, "f", ⟨35, 36, 4⟩⟩, ⟨.openParen, "(", ⟨36, 37, 4⟩⟩,
    ⟨.identifier, "A", ⟨37, 38, 4⟩⟩, ⟨.identifier, "x", ⟨39, 40, 4⟩⟩,
    ⟨.closeParen, ")", ⟨40, 41, 4⟩⟩, ⟨.semicolon, ";", ⟨41, 42, 4⟩⟩,
    ⟨.closeBrace, "\x7d", ⟨43, 44, 5⟩⟩, ⟨.semicolon, ";", ⟨44, 45, 5⟩⟩,
    ⟨.closeBrace, "\x7d", ⟨46, 47, 6⟩⟩, ⟨.endOfFile, "", ⟨47, 47, 6⟩⟩]

/-- The forward declaration is 0. In the class, the type that the method returns is 1, the type of
its parameter 2 and the parameter 3; the method is 4, the class 5 and the namespace around it 6. -/
theorem InterfaceFile.spacedTokens_numbered :
    ∃ file, ofTokens ⟨false⟩ 47 spacedTokens = .ok file ∧ file.nodes = [0, 1, 2, 3, 4, 5, 6] := by
  have hcount : (ofTokens ⟨false⟩ 47 spacedTokens).toOption.map (·.nodes.length) = some 7 := by
    decide +kernel
  cases h : ofTokens ⟨false⟩ 47 spacedTokens with
  | error ds => rw [h] at hcount; cases hcount
  | ok file =>
    rw [h] at hcount
    have hlength : file.nodes.length = 7 := Option.some.inj hcount
    refine ⟨file, rfl, ?_⟩
    rw [nodes_eq_range h, hlength]
    rfl

end BindingIdl
