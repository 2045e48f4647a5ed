import QueryGrammar.Json.Decoder
import QueryGrammar.Proofs.Data.Dictionary
import QueryGrammar.Proofs.Json.ReadBack

namespace QueryGrammar.Json

open Decimal

/-! Decoding what was encoded.

Main statement: what a decoder returns from a value it also returns from the text of the value, if
that is not nested too deeply.
-/

mutual

/-- How many brackets are open where most are. -/
def depth : Json → Nat
  | .null | .bool _ | .number _ | .string _ => 0
  | .array items => depthOfItems items + 1
  | .object members => depthOfMembers members + 1

def depthOfItems : List Json → Nat
  | [] => 0
  | item :: rest => max item.depth (depthOfItems rest)

def depthOfMembers : List (Option String × Json) → Nat
  | [] => 0
  | (_, value) :: rest => max value.depth (depthOfMembers rest)

end

theorem depthOfItems_le {items : List Json} {levels : Nat} :
    depthOfItems items ≤ levels ↔ ∀ item ∈ items, item.depth ≤ levels := by
  induction items with
  | nil => simp [depthOfItems]
  | cons item rest ih => rw [depthOfItems, Nat.max_le, ih, List.forall_mem_cons]

theorem depthOfMembers_le {members : List (Option String × Json)} {levels : Nat} :
    depthOfMembers members ≤ levels ↔ ∀ member ∈ members, member.2.depth ≤ levels := by
  induction members with
  | nil => simp [depthOfMembers]
  | cons member rest ih => rw [depthOfMembers, Nat.max_le, ih, List.forall_mem_cons]

theorem exists_levels_of_array {items : List Json} {levels : Nat}
    (inside : (Json.array items).depth ≤ levels) :
    ∃ inner, levels = inner + 1 ∧ ∀ item ∈ items, item.depth ≤ inner := by
  cases levels with
  | zero => simp [depth] at inside
  | succ inner =>
      rw [depth, Nat.add_le_add_iff_right] at inside
      exact ⟨inner, rfl, depthOfItems_le.1 inside⟩

theorem exists_levels_of_object {members : List (Option String × Json)} {levels : Nat}
    (inside : (Json.object members).depth ≤ levels) :
    ∃ inner, levels = inner + 1 ∧ ∀ member ∈ members, member.2.depth ≤ inner := by
  cases levels with
  | zero => simp [depth] at inside
  | succ inner =>
      rw [depth, Nat.add_le_add_iff_right] at inside
      exact ⟨inner, rfl, depthOfMembers_le.1 inside⟩

/-- A decoder returns a value from what can be written, wherever it may go deep enough. -/
structure Decoder.Returns (decoder : Decoder α) (json : Json) (value : α) : Prop where
  proper : json.Proper
  reads : ∀ levels, json.depth ≤ levels → decoder levels json = some value

namespace Decoder

variable {α : Type} {decoder : Decoder α} {json : Json} {value : α}

theorem Returns.decode?_compact (returns : Returns decoder json value)
    (shallow : json.depth ≤ deepest) : decode? decoder json.compact = some value := by
  rw [decode?, returns.proper.read?_compact]
  exact returns.reads deepest shallow

theorem Returns.decode?_pretty (returns : Returns decoder json value)
    (shallow : json.depth ≤ deepest) : decode? decoder json.pretty = some value := by
  rw [decode?, returns.proper.read?_pretty]
  exact returns.reads deepest shallow

theorem Returns.ne_null (returns : Returns decoder json value)
    (rejects : ∀ levels, decoder levels .null = none) : json ≠ .null := by
  rintro rfl
  have reads := returns.reads 0 (Nat.le_refl _)
  rw [rejects] at reads
  cases reads

theorem returns_text (content : String) : Returns text (.text content) content :=
  ⟨proper_text content, fun _ _ => rfl⟩

theorem returns_bool (value : Bool) : Returns bool (.bool value) value :=
  ⟨.bool value, fun _ _ => rfl⟩

theorem returns_nat {n : Nat} (small : n < Nat.pow 2 64) : Returns nat (.nat n) n := by
  refine ⟨proper_nat n, fun _ _ => ?_⟩
  rw [Json.nat, nat, Numeral.toNat?_ofNat, Option.filter_some, if_pos (decide_eq_true small)]

/-- An amount is read if its digits stand for it. -/
theorem returns_amount {x : Float} (finite : x.isFinite = true)
    (exact : ∀ numeral, numeralOf? x = some numeral → numeral.toFloat = x) :
    Returns amount (.amount (.known x)) (.known x) := by
  obtain ⟨b, digits⟩ := exists_numeralOf? finite
  have written : Json.amount (.known x) = .number b.numeral := by
    simp only [Json.amount, digits]
  rw [written]
  refine ⟨.number b.proper_numeral, fun _ _ => ?_⟩
  simp only [amount, exact _ digits, finite, if_true]

theorem all_map {decode : Json → Option α} {encode : α → Json} {values : List α}
    (reads : ∀ value ∈ values, decode (encode value) = some value) :
    all decode (values.map encode) = some values := by
  induction values with
  | nil => rfl
  | cons value rest ih =>
      obtain ⟨own, others⟩ := List.forall_mem_cons.1 reads
      simp only [List.map_cons, all, own, ih others]

theorem returns_list {encode : α → Json} {values : List α}
    (returns : ∀ value ∈ values, Returns decoder (encode value) value) :
    Returns (list decoder) (.ofList encode values) values := by
  refine ⟨.array (List.forall_mem_map.2 fun value member => (returns value member).proper),
    fun levels inside => ?_⟩
  obtain ⟨inner, rfl, shallow⟩ := exists_levels_of_array inside
  exact all_map fun value member =>
    (returns value member).reads inner (List.forall_mem_map.1 shallow value member)

theorem allMembers_map {decode : Json → Option α} {encode : α → Json}
    {entries : List (String × α)}
    (reads : ∀ entry ∈ entries, decode (encode entry.2) = some entry.2) :
    allMembers decode (entries.map fun entry => (some entry.1, encode entry.2)) = some entries := by
  induction entries with
  | nil => rfl
  | cons entry rest ih =>
      obtain ⟨own, others⟩ := List.forall_mem_cons.1 reads
      simp only [List.map_cons, allMembers, own, ih others]

theorem returns_dictionary {encode : α → Json} {dictionary : Dictionary α}
    (returns : ∀ entry ∈ dictionary.entries, Returns decoder (encode entry.2) entry.2) :
    Returns (Decoder.dictionary decoder)
      (.record (dictionary.entries.map fun (key, value) => (key, encode value))) dictionary := by
  have written : Json.record (dictionary.entries.map fun (key, value) => (key, encode value)) =
      .object (dictionary.entries.map fun entry => (some entry.1, encode entry.2)) := by
    rw [Json.record, List.map_map]
    rfl
  rw [written]
  refine ⟨.object (List.forall_mem_map.2 fun entry member => (returns entry member).proper),
    fun levels inside => ?_⟩
  obtain ⟨inner, rfl, shallow⟩ := exists_levels_of_object inside
  have entries := allMembers_map fun entry member =>
    (returns entry member).reads inner (List.forall_mem_map.1 shallow entry member)
  rw [Decoder.dictionary, entries, Option.map_some, Dictionary.ofList_entries]

/-! Named cases. -/

section Variant

variable {bare : String → Option α} {holding : Nat → String → Json → Option α} {name : String}

theorem returns_bare (known : bare name = some value) :
    Returns (variant bare holding) (.text name) value :=
  ⟨proper_text name, fun _ _ => known⟩

theorem returns_holding {content : Json} (full : bare name = none) (proper : content.Proper)
    (reads : ∀ levels, content.depth ≤ levels → holding levels name content = some value) :
    Returns (variant bare holding) (.record [(name, content)]) value := by
  refine ⟨.object (by simpa using proper), fun levels inside => ?_⟩
  obtain ⟨inner, rfl, shallow⟩ := exists_levels_of_object inside
  have held := reads inner (shallow _ (List.mem_singleton_self _))
  unfold variant
  simp only [Json.record, List.map_cons, List.map_nil, full]
  cases content <;> exact held

end Variant

/-! Records. -/

/-- A field of a record with how it is read: the value it holds is what its decoder returns. -/
structure Field where
  {α : Type}
  key : String
  decode : Nat → Option Json → Option α
  json : Option Json
  value : α
  proper : ∀ found, json = some found → found.Proper
  reads : ∀ levels, (∀ found, json = some found → found.depth ≤ levels) →
    decode levels json = some value

namespace Field

def required (key : String) (returns : Returns decoder json value) : Field where
  key := key
  decode := Decoder.required decoder
  json := some json
  value := value
  proper _ same := Option.some.inj same ▸ returns.proper
  reads levels inside := returns.reads levels (inside json rfl)

def defaulted (key : String) (standard : α) (returns : Returns decoder json value) : Field where
  key := key
  decode := Decoder.defaulted decoder standard
  json := some json
  value := value
  proper _ same := Option.some.inj same ▸ returns.proper
  reads levels inside := returns.reads levels (inside json rfl)

/-- Only what is not written as null can be told from a field without a value. -/
def optional (key : String) (encode : α → Json) (option : Option α)
    (rejects : ∀ levels, decoder levels .null = none)
    (returns : ∀ value ∈ option, Returns decoder (encode value) value) : Field where
  key := key
  decode := Decoder.optional decoder
  json := option.map encode
  value := option
  proper found same := by
    obtain ⟨value, rfl, rfl⟩ := Option.map_eq_some_iff.1 same
    exact (returns value rfl).proper
  reads levels inside := by
    cases option with
    | none => rfl
    | some value =>
        have own := returns value rfl
        have reads := own.reads levels (inside _ rfl)
        have present := own.ne_null rejects
        unfold Decoder.optional
        split
        · contradiction
        · rename_i null
          exact absurd (Option.some.inj null) present
        · rename_i json _ same
          cases same
          rw [reads, Option.map_some]

/-- The members of a record: fields without a value are left out. -/
def present (all : List Field) : List (String × Json) :=
  all.filterMap fun field => field.json.map fun json => (field.key, json)

@[simp] theorem present_nil : present [] = [] := rfl

@[simp] theorem present_required (key : String) (returns : Returns decoder json value)
    (rest : List Field) : present (required key returns :: rest) = (key, json) :: present rest :=
  rfl

@[simp] theorem present_defaulted (key : String) (standard : α)
    (returns : Returns decoder json value) (rest : List Field) :
    present (defaulted key standard returns :: rest) = (key, json) :: present rest :=
  rfl

@[simp] theorem present_optional (key : String) (encode : α → Json) (option : Option α)
    (rejects : ∀ levels, decoder levels .null = none)
    (returns : ∀ value ∈ option, Returns decoder (encode value) value) (rest : List Field) :
    present (optional key encode option rejects returns :: rest) =
      Json.optional key encode option ++ present rest := by
  cases option <;> rfl

end Field

variable {all : List Field}

theorem sublist_keys : ((Field.present all).map (·.1)).Sublist (all.map (·.key)) := by
  induction all with
  | nil => simp
  | cons field rest ih =>
      rw [Field.present, List.filterMap_cons]
      cases field.json with
      | none => exact ih.cons _
      | some json => exact ih.cons_cons _

theorem keysOf_record (members : List (String × Json)) :
    keysOf (members.map fun (key, value) => (some key, value)) = some (members.map (·.1)) := by
  induction members with
  | nil => rfl
  | cons member rest ih => rw [List.map_cons, keysOf, ih, Option.map_some, List.map_cons]

theorem hasRepeats_eq_false {keys : List String} (distinct : keys.Nodup) :
    hasRepeats keys = false := by
  induction keys with
  | nil => rfl
  | cons key rest ih =>
      obtain ⟨fresh, others⟩ := List.nodup_cons.1 distinct
      simp [hasRepeats, fresh, ih others]

theorem memberOf?_absent {key : String} {members : List (String × Json)}
    (absent : key ∉ members.map (·.1)) :
    memberOf? key (members.map fun (key, value) => (some key, value)) = none := by
  induction members with
  | nil => rfl
  | cons member rest ih =>
      rw [List.map_cons, List.mem_cons, not_or] at absent
      have other : some member.1 ≠ some key := fun same => absent.1 (Option.some.inj same).symm
      rw [List.map_cons, memberOf?, if_neg other, ih absent.2]

theorem memberOf?_present (distinct : (all.map (·.key)).Nodup) : ∀ field ∈ all,
    memberOf? field.key ((Field.present all).map fun (key, value) => (some key, value)) =
      field.json := by
  induction all with
  | nil => nofun
  | cons first rest ih =>
      obtain ⟨fresh, others⟩ := List.nodup_cons.1 distinct
      have absent : first.key ∉ (Field.present rest).map (·.1) :=
        fun member => fresh (sublist_keys.subset member)
      rw [List.forall_mem_cons]
      cases held : first.json with
      | none =>
          have skipped : Field.present (first :: rest) = Field.present rest := by
            rw [Field.present, List.filterMap_cons, held]
            rfl
          rw [skipped]
          exact ⟨memberOf?_absent absent, ih others⟩
      | some json =>
          have kept : Field.present (first :: rest) = (first.key, json) :: Field.present rest := by
            rw [Field.present, List.filterMap_cons, held]
            rfl
          rw [kept, List.map_cons]
          refine ⟨if_pos rfl, fun field member => ?_⟩
          have apart : some first.key ≠ some field.key := fun same =>
            fresh (List.mem_map.2 ⟨field, member, (Option.some.inj same).symm⟩)
          rw [memberOf?, if_neg apart, ih others field member]

/-- The fields of a record are found again, whether they were left out or not. -/
theorem fields_present (distinct : (all.map (·.key)).Nodup) :
    fields (all.map (·.key)) (.record (Field.present all)) = some (all.map (·.json)) := by
  have keys : ((Field.present all).map (·.1)).filter (all.map (·.key)).contains =
      (Field.present all).map (·.1) := by
    refine List.filter_eq_self.2 fun key member => ?_
    exact List.contains_iff_mem.2 (sublist_keys.subset member)
  have single : hasRepeats ((Field.present all).map (·.1)) = false :=
    hasRepeats_eq_false (distinct.sublist sublist_keys)
  have found : (all.map (·.key)).map (memberOf? ·
      ((Field.present all).map fun (key, value) => (some key, value))) = all.map (·.json) := by
    rw [List.map_map]
    exact List.map_congr_left (memberOf?_present distinct)
  rw [Json.record, fields, keysOf_record]
  simp only [keys, single, found]
  rfl

/-- A record is read field by field. -/
theorem returns_record (all : List Field) {names : List String}
    {build : Nat → List (Option Json) → Option α} (written : json = .record (Field.present all))
    (named : names = all.map (·.key)) (distinct : names.Nodup)
    (built : ∀ levels, (∀ field ∈ all, field.decode levels field.json = some field.value) →
      build levels (all.map (·.json)) = some value) :
    Returns (record names build) json value := by
  subst written named
  have held : ∀ field ∈ all, ∀ found, field.json = some found →
      (some field.key, found) ∈ (Field.present all).map fun (key, value) => (some key, value) := by
    intro field member found same
    refine List.mem_map.2 ⟨(field.key, found), List.mem_filterMap.2 ⟨field, member, ?_⟩, rfl⟩
    rw [same, Option.map_some]
  constructor
  · refine .object fun member inside => ?_
    obtain ⟨⟨key, found⟩, listed, rfl⟩ := List.mem_map.1 inside
    obtain ⟨field, among, same⟩ := List.mem_filterMap.1 listed
    obtain ⟨json, given, made⟩ := Option.map_eq_some_iff.1 same
    cases made
    exact field.proper found given
  · intro levels inside
    obtain ⟨inner, rfl, shallow⟩ := exists_levels_of_object inside
    simp only [record, fields_present distinct]
    exact built inner fun field member => field.reads inner fun found same =>
      shallow _ (held field member found same)

end Decoder

end QueryGrammar.Json
