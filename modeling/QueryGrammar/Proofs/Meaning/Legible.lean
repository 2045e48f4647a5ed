import QueryGrammar.Proofs.Meaning.Order

namespace QueryGrammar

/-! Reading meanings off their text.

Main statement: meanings with the same text are the same, if no name has a parenthesis or a comma in
it and arguments are applied to nothing.
-/

variable {κ : Type}

def isDelimiter (c : Char) : Bool :=
  c == '(' || c == ')' || c == ','

def Concept.isLegible (concept : Concept κ) : Bool :=
  !concept.name.toList.isEmpty && concept.name.toList.all (!isDelimiter ·)

namespace Meaning

mutual

def isLegible : Meaning κ → Bool
  | .apply concept args =>
      concept.isLegible && (!concept.isArgument || args.isEmpty) && areLegible args

def areLegible : List (Meaning κ) → Bool
  | [] => true
  | first :: rest => isLegible first && areLegible rest

end

theorem areLegible_iff {meanings : List (Meaning κ)} :
    areLegible meanings = true ↔ ∀ meaning ∈ meanings, meaning.isLegible = true := by
  induction meanings with
  | nil => simp [areLegible]
  | cons first rest ih => simp [areLegible, ih]

theorem isLegible_apply {concept : Concept κ} {args : List (Meaning κ)} :
    (apply concept args).isLegible = true ↔ concept.isLegible = true ∧
      (concept.isArgument = true → args = []) ∧ ∀ meaning ∈ args, meaning.isLegible = true := by
  rw [isLegible, Bool.and_eq_true, Bool.and_eq_true, areLegible_iff, and_assoc]
  cases concept.isArgument <;> simp

/-- What stands between the parentheses. -/
def listing (args : List (Meaning κ)) : List Char :=
  (String.intercalate "," (texts args)).toList

/-- What stands behind the first argument. -/
def following (args : List (Meaning κ)) (tail : List Char) : List Char :=
  match args with
  | [] => tail
  | second :: rest => ',' :: (listing (second :: rest) ++ tail)

theorem listing_cons (first : Meaning κ) (rest : List (Meaning κ)) (tail : List Char) :
    listing (first :: rest) ++ tail = first.text.toList ++ following rest tail := by
  cases rest with
  | nil => simp [listing, texts, following]
  | cons second rest =>
      simp [listing, texts, following, String.intercalate_cons_cons, String.toList_append]

theorem toList_text {concept : Concept κ} (function : concept.isArgument = false)
    (args : List (Meaning κ)) (tail : List Char) :
    (apply concept args).text.toList ++ tail =
      concept.name.toList ++ '(' :: (listing args ++ ')' :: tail) := by
  simp [text, function, listing, String.toList_append]

theorem text_argument {concept : Concept κ} (argument : concept.isArgument = true)
    (args : List (Meaning κ)) : (apply concept args).text = concept.name := by
  simp [text, argument]

/-- Names end where the first delimiter is. -/
theorem name_of_append {name other rest onward : List Char} (plain : name.all (!isDelimiter ·))
    (plainAlso : other.all (!isDelimiter ·)) (ends : ∀ c ∈ rest.head?, isDelimiter c = true)
    (endsAlso : ∀ c ∈ onward.head?, isDelimiter c = true) (same : name ++ rest = other ++ onward) :
    name = other ∧ rest = onward := by
  have span : ∀ {name rest : List Char}, name.all (!isDelimiter ·) = true →
      (∀ c ∈ rest.head?, isDelimiter c = true) →
      (name ++ rest).takeWhile (!isDelimiter ·) = name := by
    intro name rest plain ends
    rw [List.takeWhile_append_of_pos (List.all_eq_true.1 plain)]
    cases rest with
    | nil => simp
    | cons c rest => simp [ends c rfl]
  have names : name = other := by
    rw [← span plain ends, same, span plainAlso endsAlso]
  subst names
  exact ⟨rfl, List.append_cancel_left same⟩

/-- A meaning is followed by nothing, by a comma or by a closing parenthesis. -/
def Stops (tail : List Char) : Prop :=
  ∀ c ∈ tail.head?, c = ',' ∨ c = ')'

theorem Stops.delimiter {tail : List Char} (stops : Stops tail) :
    ∀ c ∈ tail.head?, isDelimiter c = true := by
  intro c first
  rcases stops c first with rfl | rfl <;> rfl

theorem Stops.ne_open {tail rest : List Char} (stops : Stops tail) : tail ≠ '(' :: rest := by
  rintro rfl
  rcases stops '(' rfl with same | same <;> cases same

theorem stops_following (args : List (Meaning κ)) (tail : List Char) :
    Stops (following args (')' :: tail)) := by
  intro c first
  cases args with
  | nil => exact .inr (Option.some.inj first).symm
  | cons second rest => exact .inl (Option.some.inj first).symm

theorem exists_cons_text {meaning : Meaning κ} (legible : meaning.isLegible = true) :
    ∃ c rest, meaning.text.toList = c :: rest ∧ isDelimiter c = false := by
  obtain ⟨concept, args⟩ := meaning
  have own := (isLegible_apply.1 legible).1
  rw [Concept.isLegible, Bool.and_eq_true] at own
  cases name : concept.name.toList with
  | nil => simp [name] at own
  | cons c rest =>
      rw [name, List.all_cons, Bool.and_eq_true] at own
      have plain : isDelimiter c = false := by simpa using own.2.1
      cases kind : concept.isArgument with
      | true => exact ⟨c, rest, by simp [text, kind, name], plain⟩
      | false =>
          have spelled := toList_text kind args []
          rw [List.append_nil, name] at spelled
          exact ⟨c, _, spelled, plain⟩

theorem listing_ne {first : Meaning κ} {rest : List (Meaning κ)} {tail onward : List Char}
    (legible : first.isLegible = true) :
    listing (first :: rest) ++ ')' :: tail ≠ listing ([] : List (Meaning κ)) ++ ')' :: onward := by
  obtain ⟨c, others, spelled, plain⟩ := exists_cons_text legible
  intro same
  rw [listing_cons, spelled] at same
  have closing : c = ')' := (List.cons.inj same).1
  rw [closing] at plain
  cases plain

mutual

theorem order_of_text : (first other : Meaning κ) → first.isLegible = true →
    other.isLegible = true → {tail onward : List Char} → Stops tail → Stops onward →
    first.text.toList ++ tail = other.text.toList ++ onward →
    order first other = .eq ∧ tail = onward
  | .apply concept args, .apply other others, legible, legibleAlso, tail, onward, stops, stopsAlso,
      same => by
      obtain ⟨own, leaf, inner⟩ := isLegible_apply.1 legible
      obtain ⟨ownAlso, leafAlso, innerAlso⟩ := isLegible_apply.1 legibleAlso
      have plain := (Bool.and_eq_true_iff.1 own).2
      have plainAlso := (Bool.and_eq_true_iff.1 ownAlso).2
      have opens : ∀ {rest : List Char}, ∀ c ∈ ('(' :: rest).head?, isDelimiter c = true := by
        rintro _ c ⟨⟩
        rfl
      rw [order, Ordering.then_eq_eq, Std.compare_eq_iff_eq]
      cases kind : concept.isArgument with
      | true =>
          rw [text_argument kind] at same
          cases kindAlso : other.isArgument with
          | true =>
              rw [text_argument kindAlso] at same
              obtain ⟨names, tails⟩ :=
                name_of_append plain plainAlso stops.delimiter stopsAlso.delimiter same
              rw [leaf kind, leafAlso kindAlso]
              exact ⟨⟨String.toList_inj.1 names, rfl⟩, tails⟩
          | false =>
              rw [toList_text kindAlso] at same
              exact absurd (name_of_append plain plainAlso stops.delimiter opens same).2
                stops.ne_open
      | false =>
          rw [toList_text kind] at same
          cases kindAlso : other.isArgument with
          | true =>
              rw [text_argument kindAlso] at same
              exact absurd (name_of_append plain plainAlso opens stopsAlso.delimiter same).2.symm
                stopsAlso.ne_open
          | false =>
              rw [toList_text kindAlso] at same
              obtain ⟨names, rests⟩ := name_of_append plain plainAlso opens opens same
              obtain ⟨equal, tails⟩ :=
                orderAll_of_listing args others inner innerAlso (List.cons.inj rests).2
              exact ⟨⟨String.toList_inj.1 names, equal⟩, tails⟩

theorem orderAll_of_listing : (values others : List (Meaning κ)) →
    (∀ meaning ∈ values, meaning.isLegible = true) →
    (∀ meaning ∈ others, meaning.isLegible = true) → {tail onward : List Char} →
    listing values ++ ')' :: tail = listing others ++ ')' :: onward →
    orderAll values others = .eq ∧ tail = onward
  | [], [], _, _, tail, onward, same => ⟨rfl, (List.cons.inj same).2⟩
  | [], other :: others, _, legible, tail, onward, same =>
      absurd same.symm (listing_ne (legible other (List.mem_cons_self ..)))
  | first :: rest, [], legible, _, tail, onward, same =>
      absurd same (listing_ne (legible first (List.mem_cons_self ..)))
  | first :: rest, other :: others, legible, legibleAlso, tail, onward, same => by
      obtain ⟨own, inner⟩ := List.forall_mem_cons.1 legible
      obtain ⟨ownAlso, innerAlso⟩ := List.forall_mem_cons.1 legibleAlso
      rw [listing_cons, listing_cons] at same
      obtain ⟨equal, tails⟩ := order_of_text first other own ownAlso (stops_following rest tail)
        (stops_following others onward) same
      rw [orderAll, equal, Ordering.eq_then]
      cases rest with
      | nil =>
          cases others with
          | nil => exact ⟨rfl, (List.cons.inj tails).2⟩
          | cons next others => cases (List.cons.inj tails).1
      | cons second rest =>
          cases others with
          | nil => cases (List.cons.inj tails).1
          | cons next others =>
              exact orderAll_of_listing (second :: rest) (next :: others) inner innerAlso
                (List.cons.inj tails).2

end

/-- Meanings with the same text are the same. -/
theorem order_eq_of_text {first other : Meaning κ} (legible : first.isLegible = true)
    (legibleAlso : other.isLegible = true) (same : first.text = other.text) :
    order first other = .eq := by
  have spelled : first.text.toList ++ [] = other.text.toList ++ [] := by rw [same]
  have nothing : Stops [] := by simp [Stops]
  exact (order_of_text first other legible legibleAlso nothing nothing spelled).1

end Meaning

end QueryGrammar
