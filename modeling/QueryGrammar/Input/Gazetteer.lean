import QueryGrammar.Artifact.Error
import QueryGrammar.Data.Dictionary
import QueryGrammar.Json.Decoder
import QueryGrammar.Text.Case
import QueryGrammar.Text.Quoted

namespace QueryGrammar

/-! Gazetteers: the named things that placeholders refer to, found by normalized name. -/

structure Entity where
  id : String
  name : String
deriving DecidableEq, Repr

structure Gazetteer where
  /-- The entities of a name, each with its category. -/
  byName : Dictionary (List (String × Entity))
  /-- The number of words in the longest name. -/
  longestName : Nat

inductive GazetteerError where
  | unreadable
  | blank (category : String) (entity : Entity)

/-- What is wrong with a blank entity. -/
def GazetteerError.problem (category : String) (entity : Entity) : String :=
  "entity Entity \x7b id: " ++ Text.quoted entity.id ++ ", name: " ++ Text.quoted entity.name ++
    " \x7d in category " ++ Text.quoted category ++ " needs a nonblank id and name"

def Entity.decoder : Json.Decoder Entity :=
  Json.Decoder.record ["id", "name"] fun
    | levels, [id, name] => do
        let id ← Json.Decoder.required Json.Decoder.text levels id
        let name ← Json.Decoder.required Json.Decoder.text levels name
        some ⟨id, name⟩
    | _, _ => none

namespace Gazetteer

def empty : Gazetteer := ⟨{}, 0⟩

instance : Inhabited Gazetteer := ⟨empty⟩

/-- Words are counted by the spaces between them. -/
def wordCount (normalized : String) : Nat :=
  (normalized.toList.filter (· == ' ')).length + 1

/-- Adds an entity behind those of its name, unless its category has its id there. -/
def addTo (category : String) (entity : Entity) (present : List (String × Entity)) :
    List (String × Entity) :=
  if present.any fun (other, known) => other == category && known.id == entity.id then present
  else present ++ [(category, entity)]

def add (gazetteer : Gazetteer) (category : String) (entity : Entity) :
    Except GazetteerError Gazetteer :=
  let key := Text.normalize entity.name
  if key.isEmpty || Text.isBlankText entity.id || Text.isBlankText category then
    .error (.blank category entity)
  else .ok {
    byName := gazetteer.byName.alter key fun present =>
      addTo category entity (present.getD [])
    longestName := max gazetteer.longestName (wordCount key) }

def addAll (gazetteer : Gazetteer) : List (String × Entity) → Except GazetteerError Gazetteer
  | [] => .ok gazetteer
  | (category, entity) :: rest =>
      match gazetteer.add category entity with
      | .ok larger => larger.addAll rest
      | .error cause => .error cause

def decoder : Json.Decoder (Dictionary (List Entity)) :=
  Json.Decoder.dictionary (Json.Decoder.list Entity.decoder)

/-- Reads lists of entities by category. -/
def ofArtifact (text : String) : Except GazetteerError Gazetteer :=
  match Json.decode? decoder text with
  | none => .error .unreadable
  | some categories =>
      empty.addAll (categories.entries.flatMap fun (category, entities) =>
        entities.map fun entity => (category, entity))

/-- The entities of a normalized name. -/
def lookUp (gazetteer : Gazetteer) (normalized : String) : List (String × Entity) :=
  (gazetteer.byName.get? normalized).getD []

def size (gazetteer : Gazetteer) : Nat :=
  gazetteer.byName.values.flatten.length

end Gazetteer

end QueryGrammar
