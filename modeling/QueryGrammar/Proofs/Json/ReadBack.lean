import QueryGrammar.Proofs.Json.Layout

namespace QueryGrammar.Json

open Decimal

/-! Reading laid out values.

Main statement: a value is read back from its text, whether on one line or indented.
-/

variable {layout : Layout}

theorem isDigit_of_isSpace {c : Char} (space : isSpace c = true) : isDigit c = false := by
  simp only [isSpace, Bool.or_eq_true, beq_iff_eq] at space
  rcases space with ((rfl | rfl) | rfl) | rfl <;> decide

/-- Text that may come after a value: white space, or the end of what holds the value. -/
def Ended (rest : List Char) : Prop :=
  ∀ c, rest.head? = some c → isSpace c = true ∨ c = ',' ∨ c = ']' ∨ c = '\x7d'

theorem ended_blank {blank rest : List Char} (spaces : Blank blank) (ended : Ended rest) :
    Ended (blank ++ rest) := by
  intro c head
  cases blank with
  | nil => exact ended c head
  | cons first more =>
      cases head
      exact .inl (spaces _ (List.mem_cons_self ..))

theorem ended_close {c : Char} {rest : List Char} (closing : c = ',' ∨ c = ']' ∨ c = '\x7d') :
    Ended (c :: rest) := by
  intro first head
  cases head
  exact .inr closing

theorem Ended.ends {rest : List Char} (ended : Ended rest) : Ends rest := by
  intro c head
  rcases ended c head with space | rfl | rfl | rfl
  · refine ⟨isDigit_of_isSpace space, ?_, ?_, ?_⟩ <;>
      rintro rfl <;> cases space
  all_goals decide

theorem lay_head (level : Nat) {json : Json} (proper : json.Proper) :
    ∃ c more, layout.lay level json = c :: more ∧ isSpace c = false ∧ c ≠ ']' := by
  cases proper with
  | null => exact ⟨_, _, Layout.lay.eq_def .., by decide⟩
  | bool value => cases value <;> exact ⟨_, _, Layout.lay.eq_def .., by decide⟩
  | number proper =>
      obtain ⟨c, more, same, first⟩ := proper.render_head
      refine ⟨c, more, (Layout.lay.eq_def ..).trans same, ?_⟩
      rcases first with rfl | digit
      · decide
      · refine ⟨Bool.eq_false_iff.2 fun space => ?_, ?_⟩
        · rw [isDigit_of_isSpace space] at digit
          cases digit
        · rintro rfl
          cases digit
  | string content =>
      obtain ⟨inside, same, -⟩ := readString_writeString content []
      rw [List.append_nil] at same
      exact ⟨_, _, (Layout.lay.eq_def ..).trans same, by decide⟩
  | @array items all => cases items <;> exact ⟨_, _, Layout.lay.eq_def .., by decide⟩
  | @object members all => cases members <;> exact ⟨_, _, Layout.lay.eq_def .., by decide⟩

theorem skipSpace_lay {level : Nat} {json : Json} (proper : json.Proper) {blank : List Char}
    (spaces : Blank blank) (rest : List Char) :
    skipSpace (blank ++ (layout.lay level json ++ rest)) = layout.lay level json ++ rest := by
  obtain ⟨c, more, same, visible, -⟩ := @lay_head layout level json proper
  rw [same, List.cons_append, skipSpace_blank spaces visible]

theorem layItems_one (level : Nat) (item : Json) :
    layout.layItems level [item] = layout.gap level ++ layout.lay level item := by
  rw [Layout.layItems]

theorem layItems_more (level : Nat) (item other : Json) (more : List Json) :
    layout.layItems level (item :: other :: more) = layout.gap level ++
      (layout.lay level item ++ ',' :: layout.layItems level (other :: more)) := by
  rw [Layout.layItems, List.append_assoc]
  exact List.cons_ne_nil other more

theorem layMembers_one (level : Nat) (key : Option String) (value : Json) :
    layout.layMembers level [(key, value)] = layout.gap level ++
      (writeString key ++ ':' :: (layout.colon ++ layout.lay level value)) := by
  rw [Layout.layMembers]
  simp only [List.append_assoc, List.cons_append]

theorem layMembers_more (level : Nat) (key : Option String) (value : Json)
    (other : Option String × Json) (more : List (Option String × Json)) :
    layout.layMembers level ((key, value) :: other :: more) = layout.gap level ++
      (writeString key ++ ':' :: (layout.colon ++
        (layout.lay level value ++ ',' :: layout.layMembers level (other :: more)))) := by
  rw [Layout.layMembers]
  · simp only [List.append_assoc, List.cons_append]
  · exact List.cons_ne_nil other more

/-- What items start with is not what ends them. -/
theorem head?_layItems (level : Nat) {items : List Json} (present : items ≠ [])
    (proper : ∀ item ∈ items, item.Proper) (rest : List Char) :
    (skipSpace (layout.layItems level items ++ rest)).head? ≠ some ']' := by
  obtain ⟨item, more, rfl⟩ := List.exists_cons_of_ne_nil present
  have own := proper item (List.mem_cons_self ..)
  obtain ⟨c, text, starts, -, apart⟩ := @lay_head layout level item own
  have starting : ∃ tail, layout.layItems level (item :: more) =
      layout.gap level ++ (layout.lay level item ++ tail) := by
    cases more with
    | nil => exact ⟨[], by rw [layItems_one, List.append_nil]⟩
    | cons other more => exact ⟨_, layItems_more level item other more⟩
  obtain ⟨tail, same⟩ := starting
  rw [same, List.append_assoc, List.append_assoc, skipSpace_lay own (layout.blank_gap level),
    starts]
  simpa using apart

theorem head?_layMembers (level : Nat) {members : List (Option String × Json)}
    (present : members ≠ []) (rest : List Char) :
    (skipSpace (layout.layMembers level members ++ rest)).head? ≠ some '\x7d' := by
  obtain ⟨⟨key, value⟩, more, rfl⟩ := List.exists_cons_of_ne_nil present
  have starting : ∃ tail, layout.layMembers level ((key, value) :: more) =
      layout.gap level ++ (writeString key ++ tail) := by
    cases more with
    | nil => exact ⟨_, layMembers_one level key value⟩
    | cons other more => exact ⟨_, layMembers_more level key value other more⟩
  obtain ⟨tail, same⟩ := starting
  obtain ⟨inside, quoted, -⟩ := readString_writeString key (tail ++ rest)
  rw [same, List.append_assoc, List.append_assoc, quoted,
    skipSpace_blank (layout.blank_gap level) rfl]
  simp

/-! Reading. -/

theorem readValue_array {fuel : Nat} {inside rest : List Char} {items : List Json}
    (opened : (skipSpace inside).head? ≠ some ']')
    (reads : readItems fuel inside = some (items, rest)) :
    readValue (fuel + 1) ('[' :: inside) = some (.array items, rest) := by
  have bracket : skipSpace ('[' :: inside) = '[' :: inside := rfl
  rw [← readItems_skipSpace] at reads
  rw [readValue, bracket]
  simp only
  split
  · rename_i closed
    exact absurd (congrArg List.head? closed) opened
  · rw [reads]

theorem readValue_object {fuel : Nat} {inside rest : List Char}
    {members : List (Option String × Json)} (opened : (skipSpace inside).head? ≠ some '\x7d')
    (reads : readMembers fuel inside = some (members, rest)) :
    readValue (fuel + 1) ('\x7b' :: inside) = some (.object members, rest) := by
  have bracket : skipSpace ('\x7b' :: inside) = '\x7b' :: inside := rfl
  rw [← readMembers_skipSpace] at reads
  rw [readValue, bracket]
  simp only
  split
  · rename_i closed
    exact absurd (congrArg List.head? closed) opened
  · rw [reads]

theorem readValue_number {fuel : Nat} {numeral : Numeral} (proper : numeral.Proper)
    {rest : List Char} (ends : Ends rest) :
    readValue (fuel + 1) (numeral.render ++ rest) = some (.number numeral, rest) := by
  have shown : skipSpace (numeral.render ++ rest) = numeral.render ++ rest := by
    obtain ⟨c, more, same, visible, -⟩ := @lay_head .tight 0 (.number numeral) (.number proper)
    rw [Layout.lay] at same
    rw [same]
    simp [skipSpace, visible]
  have apart : ∀ c more, isDigit c = false → c ≠ '-' → numeral.render ++ rest ≠ c :: more := by
    intro c more other unsigned same
    obtain ⟨first, digits, rendered, begins⟩ := proper.render_head
    rw [rendered] at same
    obtain ⟨rfl, -⟩ := List.cons.inj same
    rcases begins with sign | digit
    · exact unsigned sign
    · rw [other] at digit
      cases digit
  rw [readValue, shown]
  split
  iterate 6 exact absurd ‹_› (apart _ _ (by decide) (by decide))
  rw [proper.readNumeral ends]

section Member

variable {fuel : Nat} {blank valued after rest : List Char} {key : Option String} {value : Json}
  (spaces : Blank blank) (reads : readValue fuel valued = some (value, after))
include spaces reads

theorem readMembers_last (closes : skipSpace after = '\x7d' :: rest) :
    readMembers (fuel + 1) (blank ++ (writeString key ++ ':' :: valued)) =
      some ([(key, value)], rest) := by
  obtain ⟨inside, quoted, keyed⟩ := readString_writeString key (':' :: valued)
  have colon : skipSpace (':' :: valued) = ':' :: valued := rfl
  rw [quoted, readMembers, skipSpace_blank spaces rfl]
  simp only [keyed, colon, reads, closes]

theorem readMembers_next {more : List Char} {members : List (Option String × Json)}
    (goesOn : skipSpace after = ',' :: more)
    (others : readMembers fuel more = some (members, rest)) :
    readMembers (fuel + 1) (blank ++ (writeString key ++ ':' :: valued)) =
      some ((key, value) :: members, rest) := by
  obtain ⟨inside, quoted, keyed⟩ := readString_writeString key (':' :: valued)
  have colon : skipSpace (':' :: valued) = ':' :: valued := rfl
  rw [quoted, readMembers, skipSpace_blank spaces rfl]
  simp only [keyed, colon, reads, goesOn, others]

end Member

theorem readValue_blank {level fuel : Nat} {json : Json} (proper : json.Proper)
    {blank : List Char} (spaces : Blank blank) (rest : List Char) :
    readValue fuel (blank ++ (layout.lay level json ++ rest)) =
      readValue fuel (layout.lay level json ++ rest) := by
  rw [← readValue_skipSpace, skipSpace_lay proper spaces]

theorem exists_fuel {level fuel : Nat} {json : Json} (proper : json.Proper)
    (enough : (layout.lay level json).length ≤ fuel) : ∃ less, fuel = less + 1 := by
  obtain ⟨c, more, same, -⟩ := @lay_head layout level json proper
  rw [same, List.length_cons] at enough
  exact Nat.exists_eq_add_one.2 (by omega)

mutual

/-- A value is read from its text, however it is laid out, before anything that can come after a
value. Every level takes two characters and every step between items one, so there is fuel. -/
theorem readValue_lay : (json : Json) → json.Proper → ∀ {fuel level : Nat} {rest : List Char},
    Ended rest → (layout.lay level json).length ≤ fuel →
    readValue fuel (layout.lay level json ++ rest) = some (json, rest)
  | .null, proper, fuel, level, rest, ended, enough => by
      obtain ⟨less, rfl⟩ := exists_fuel proper enough
      rw [Layout.lay]
      rfl
  | .bool true, proper, fuel, level, rest, ended, enough => by
      obtain ⟨less, rfl⟩ := exists_fuel proper enough
      rw [Layout.lay]
      rfl
  | .bool false, proper, fuel, level, rest, ended, enough => by
      obtain ⟨less, rfl⟩ := exists_fuel proper enough
      rw [Layout.lay]
      rfl
  | .number numeral, proper, fuel, level, rest, ended, enough => by
      obtain ⟨less, rfl⟩ := exists_fuel proper enough
      cases proper with
      | number proper => rw [Layout.lay, readValue_number proper ended.ends]
  | .string content, proper, fuel, level, rest, ended, enough => by
      obtain ⟨less, rfl⟩ := exists_fuel proper enough
      obtain ⟨inside, same, reads⟩ := readString_writeString content rest
      have shown : skipSpace ('"' :: inside) = '"' :: inside := rfl
      rw [Layout.lay, same, readValue, shown]
      simp only [reads]
  | .array [], proper, fuel, level, rest, ended, enough => by
      obtain ⟨less, rfl⟩ := exists_fuel proper enough
      rw [Layout.lay]
      rfl
  | .object [], proper, fuel, level, rest, ended, enough => by
      obtain ⟨less, rfl⟩ := exists_fuel proper enough
      rw [Layout.lay]
      rfl
  | .array (item :: items), proper, fuel, level, rest, ended, enough => by
      obtain ⟨less, rfl⟩ := exists_fuel proper enough
      cases proper with
      | array all =>
          have present : item :: items ≠ [] := List.cons_ne_nil item items
          rw [Layout.lay] at enough ⊢
          simp only [List.length_append, List.length_cons, List.append_assoc,
            List.cons_append, List.nil_append] at enough ⊢
          exact readValue_array (head?_layItems _ present all _)
            (readItems_lay (item :: items) present all (layout.blank_gap level) (by omega))
  | .object (member :: members), proper, fuel, level, rest, ended, enough => by
      obtain ⟨less, rfl⟩ := exists_fuel proper enough
      cases proper with
      | object all =>
          have present : member :: members ≠ [] := List.cons_ne_nil member members
          rw [Layout.lay] at enough ⊢
          simp only [List.length_append, List.length_cons, List.append_assoc,
            List.cons_append, List.nil_append] at enough ⊢
          exact readValue_object (head?_layMembers _ present _)
            (readMembers_lay (member :: members) present all (layout.blank_gap level) (by omega))

theorem readItems_lay : (items : List Json) → items ≠ [] → (∀ item ∈ items, item.Proper) →
    ∀ {fuel level : Nat} {blank rest : List Char}, Blank blank →
    (layout.layItems level items).length < fuel →
    readItems fuel (layout.layItems level items ++ (blank ++ ']' :: rest)) = some (items, rest)
  | [], present, _, _, _, _, _, _, _ => absurd rfl present
  | [item], _, proper, fuel, level, blank, rest, spaces, enough => by
      obtain ⟨less, rfl⟩ := Nat.exists_eq_add_one.2 (Nat.zero_lt_of_lt enough)
      have own := proper item (List.mem_singleton_self _)
      rw [layItems_one, List.length_append] at enough
      rw [layItems_one, List.append_assoc, readItems, readValue_blank own (layout.blank_gap level),
        readValue_lay item own (ended_blank spaces (ended_close (by decide))) (by omega)]
      simp only [skipSpace_blank spaces (c := ']') rfl]
  | item :: other :: more, _, proper, fuel, level, blank, rest, spaces, enough => by
      obtain ⟨less, rfl⟩ := Nat.exists_eq_add_one.2 (Nat.zero_lt_of_lt enough)
      have own := proper item (List.mem_cons_self ..)
      have others : ∀ item ∈ other :: more, item.Proper :=
        fun item member => proper item (List.mem_cons_of_mem _ member)
      rw [layItems_more, List.length_append, List.length_append, List.length_cons] at enough
      rw [layItems_more]
      simp only [List.append_assoc, List.cons_append]
      rw [readItems, readValue_blank own (layout.blank_gap level),
        readValue_lay item own (ended_close (by decide)) (by omega)]
      have comma : ∀ text, skipSpace (',' :: text) = ',' :: text := fun _ => rfl
      simp only [comma]
      rw [readItems_lay (other :: more) (List.cons_ne_nil other more) others spaces (by omega)]

theorem readMembers_lay : (members : List (Option String × Json)) → members ≠ [] →
    (∀ member ∈ members, member.2.Proper) → ∀ {fuel level : Nat} {blank rest : List Char},
    Blank blank → (layout.layMembers level members).length < fuel →
    readMembers fuel (layout.layMembers level members ++ (blank ++ '\x7d' :: rest)) =
      some (members, rest)
  | [], present, _, _, _, _, _, _, _ => absurd rfl present
  | [(key, value)], _, proper, fuel, level, blank, rest, spaces, enough => by
      obtain ⟨less, rfl⟩ := Nat.exists_eq_add_one.2 (Nat.zero_lt_of_lt enough)
      have own : value.Proper := proper (key, value) (List.mem_singleton_self _)
      rw [layMembers_one] at enough ⊢
      simp only [List.length_append, List.length_cons, List.append_assoc,
        List.cons_append] at enough ⊢
      have reads : readValue less (layout.lay level value ++ (blank ++ '\x7d' :: rest)) =
          some (value, blank ++ '\x7d' :: rest) :=
        readValue_lay value own (ended_blank spaces (ended_close (by decide))) (by omega)
      rw [← readValue_blank own layout.blank_colon] at reads
      exact readMembers_last (layout.blank_gap level) reads (skipSpace_blank spaces rfl)
  | (key, value) :: other :: more, _, proper, fuel, level, blank, rest, spaces, enough => by
      obtain ⟨less, rfl⟩ := Nat.exists_eq_add_one.2 (Nat.zero_lt_of_lt enough)
      have own : value.Proper := proper (key, value) (List.mem_cons_self ..)
      have others : ∀ member ∈ other :: more, member.2.Proper :=
        fun member present => proper member (List.mem_cons_of_mem _ present)
      rw [layMembers_more] at enough ⊢
      simp only [List.length_append, List.length_cons, List.append_assoc,
        List.cons_append] at enough ⊢
      have reads : readValue less (layout.lay level value ++ ',' ::
          (layout.layMembers level (other :: more) ++ (blank ++ '\x7d' :: rest))) =
          some (value, ',' ::
            (layout.layMembers level (other :: more) ++ (blank ++ '\x7d' :: rest))) :=
        readValue_lay value own (ended_close (by decide)) (by omega)
      rw [← readValue_blank own layout.blank_colon] at reads
      exact readMembers_next (layout.blank_gap level) reads rfl
        (readMembers_lay (other :: more) (List.cons_ne_nil other more) others spaces (by omega))

end

theorem Proper.read?_lay {json : Json} (proper : json.Proper) (layout : Layout) :
    read? (String.ofList (layout.lay 0 json)) = some json := by
  have reads : readValue (2 * (layout.lay 0 json).length + 2) (layout.lay 0 json ++ []) =
      some (json, []) := readValue_lay json proper nofun (by omega)
  rw [List.append_nil] at reads
  rw [read?, String.toList_ofList]
  simp only [reads]
  rfl

theorem Proper.read?_compact {json : Json} (proper : json.Proper) :
    read? json.compact = some json := by
  rw [compact, ← Layout.lay_tight 0 json, proper.read?_lay .tight]

theorem Proper.read?_pretty {json : Json} (proper : json.Proper) :
    read? json.pretty = some json := by
  rw [pretty, ← Layout.lay_indented 0 json, proper.read?_lay .indented]

end QueryGrammar.Json
