import QueryGrammar.Meaning.Siblings

namespace QueryGrammar

/-! The whole meaning of a query: the meanings left side by side at the end. -/

structure Interpretation (κ : Type) where
  roots : List (Meaning κ)

namespace Interpretation

variable {κ : Type}

instance : Inhabited (Interpretation κ) := ⟨⟨[]⟩⟩

/-- Arranges the roots. None of them may still wait for arguments. -/
def ofRoots? (roots : List (Meaning κ)) : Option (Interpretation κ) :=
  if roots.any Meaning.isOpen then none
  else (Meaning.arrange? roots).map Interpretation.mk

instance : BEq (Interpretation κ) :=
  ⟨fun first second => Meaning.orderAll first.roots second.roots == .eq⟩

def text (interpretation : Interpretation κ) : String :=
  String.intercalate "," (Meaning.texts interpretation.roots)

def toObject (interpretation : Interpretation κ) : Json :=
  .array (Meaning.toObjects interpretation.roots)

end Interpretation

end QueryGrammar
