/-!
# Settings

What a project may choose about its interface files. Everything has a default, so a project that
chooses nothing needs no settings file.
-/

namespace BindingIdl

structure GrammarSettings where
  /-- Refuse a member that starts on the line where the one before it ended, except in a class whose
  braces are on one line. -/
  oneDeclarationPerLine : Bool
deriving DecidableEq, Repr

structure CheckSettings where
  /-- Refuse constructors that agree in arity and in the initials of their argument types. -/
  rejectAmbiguousConstructors : Bool
deriving DecidableEq, Repr

structure Settings where
  grammar : GrammarSettings
  check : CheckSettings
deriving DecidableEq, Repr

instance : Inhabited GrammarSettings := ⟨⟨true⟩⟩

instance : Inhabited CheckSettings := ⟨⟨false⟩⟩

instance : Inhabited Settings := ⟨⟨default, default⟩⟩

end BindingIdl
