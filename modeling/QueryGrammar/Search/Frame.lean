import QueryGrammar.Meaning.Siblings

namespace QueryGrammar

/-! Frames: the meaning of a rule, and what its children have contributed so far. -/

structure Frame (κ : Type) where
  meaning : Option (Meaning κ)
  args : List (Meaning κ)

namespace Frame

variable {κ : Type}

/-- A single open meaning among siblings takes the others as its arguments; two cannot be
combined. -/
def combine? (siblings : List (Meaning κ)) : Option (List (Meaning κ)) :=
  match siblings.filter Meaning.isOpen with
  | [] => some siblings
  | [only] =>
      match siblings.filter (!·.isOpen) with
      | [] => some siblings
      | others => (only.fill? others).map ([·])
  | _ => none

/-- What a frame hands on once its children are done: an open meaning takes what they contributed,
and a closed one joins it. -/
def close? (frame : Frame κ) : Option (List (Meaning κ)) :=
  match combine? frame.args with
  | none => none
  | some args =>
      match frame.meaning with
      | none => some args
      | some meaning =>
          if meaning.isOpen then
            match args with
            | [] => some [meaning]
            | args => (meaning.fill? args).map ([·])
          else some (args ++ [meaning])

end Frame

end QueryGrammar
