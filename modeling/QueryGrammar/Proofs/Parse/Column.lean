import QueryGrammar.Parse.Stack

namespace QueryGrammar.Column

/-! The links of a column: making one adds it and nothing else, and it waits if it is new. -/

variable {column after : Column} {state other : Nat} {link : Link}

/-- Every link with the state at which it ends. -/
def flat (links : List (Nat × List Link)) : List (Nat × Link) :=
  links.flatMap fun (state, links) => links.map fun link => (state, link)

def allLinks (column : Column) : List (Nat × Link) :=
  flat column.links

theorem mem_flat {links : List (Nat × List Link)} :
    (state, link) ∈ flat links ↔ ∃ own, (state, own) ∈ links ∧ link ∈ own := by
  simp only [flat, List.mem_flatMap, List.mem_map, Prod.mk.injEq]
  constructor
  · intro given
    obtain ⟨⟨_, own⟩, member, _, inOwn, rfl, rfl⟩ := given
    exact ⟨own, member, inOwn⟩
  · intro given
    obtain ⟨own, member, inOwn⟩ := given
    exact ⟨_, member, _, inOwn, rfl, rfl⟩

abbrev Ascends (links : List (Nat × List Link)) : Prop :=
  links.Pairwise fun first second => first.1 < second.1

/-- States stand in order, no link is there twice, and what waits are links. -/
structure Tidy (column : Column) : Prop where
  ascending : Ascends column.links
  distinct : column.allLinks.Nodup
  waiting : ∀ waits ∈ column.waiting, waits ∈ column.allLinks
  fewer : column.waiting.length ≤ column.allLinks.length

theorem find?_eq_some_iff {links : List (Nat × List Link)} (ascending : Ascends links)
    {own : List Link} :
    (links.find? (·.1 == state)).map (·.2) = some own ↔ (state, own) ∈ links := by
  induction links with
  | nil => simp
  | cons first rest ih =>
      obtain ⟨present, links⟩ := first
      obtain ⟨before, tail⟩ := List.pairwise_cons.1 ascending
      by_cases here : present = state
      · subst here
        have beyond : ∀ own, (present, own) ∉ rest := fun own member =>
          Nat.lt_irrefl _ (before (present, own) member)
        simp [beyond, eq_comm]
      · simp [here, Ne.symm here, ih tail]

theorem Tidy.linksOf?_eq_some_iff (tidy : column.Tidy) {own : List Link} :
    column.linksOf? state = some own ↔ (state, own) ∈ column.links :=
  find?_eq_some_iff tidy.ascending

theorem Tidy.mem_of_linksOf? (tidy : column.Tidy) {own : List Link}
    (found : column.linksOf? state = some own) :
    link ∈ own ↔ (state, link) ∈ column.allLinks := by
  refine ⟨fun member => mem_flat.2 ⟨own, tidy.linksOf?_eq_some_iff.1 found, member⟩, ?_⟩
  intro member
  obtain ⟨again, present, inAgain⟩ := mem_flat.1 member
  cases found.symm.trans (tidy.linksOf?_eq_some_iff.2 present)
  exact inAgain

theorem Tidy.exists_linksOf? (tidy : column.Tidy) (member : state ∈ column.states) :
    ∃ own, column.linksOf? state = some own := by
  obtain ⟨⟨_, own⟩, present, rfl⟩ := List.mem_map.1 member
  exact ⟨own, tidy.linksOf?_eq_some_iff.2 present⟩

theorem mem_states_of_mem_allLinks (member : (state, link) ∈ column.allLinks) :
    state ∈ column.states := by
  obtain ⟨own, present, -⟩ := mem_flat.1 member
  exact List.mem_map.2 ⟨_, present, rfl⟩

theorem Tidy.mem_getD_iff (tidy : column.Tidy) :
    link ∈ (column.linksOf? state).getD [] ↔ (state, link) ∈ column.allLinks := by
  cases found : column.linksOf? state with
  | some own => exact tidy.mem_of_linksOf? found
  | none =>
      refine ⟨by simp, fun member => ?_⟩
      obtain ⟨own, present⟩ := tidy.exists_linksOf? (mem_states_of_mem_allLinks member)
      cases found.symm.trans present

theorem flat_addLink {links : List (Nat × List Link)} :
    (flat (addLink state link links)).Perm ((state, link) :: flat links) := by
  induction links with
  | nil => exact .refl _
  | cons first rest ih =>
      obtain ⟨present, own⟩ := first
      simp only [addLink]
      split
      · exact .refl _
      · split
        · simp only [flat, List.flatMap_cons]
          exact (ih.append_left _).trans List.perm_middle
        · have same : present = state := by omega
          subst same
          simp only [flat, List.flatMap_cons, List.map_append, List.map_cons, List.map_nil,
            List.append_assoc, List.singleton_append]
          exact List.perm_middle

theorem mem_addLink_states {links : List (Nat × List Link)} :
    other ∈ (addLink state link links).map (·.1) ↔
      other = state ∨ other ∈ links.map (·.1) := by
  induction links with
  | nil => simp [addLink]
  | cons first rest ih =>
      obtain ⟨present, own⟩ := first
      simp only [addLink]
      split
      · simp
      · split
        · simp only [List.map_cons, List.mem_cons, ih]
          exact or_left_comm
        · have same : present = state := by omega
          simp [same]

theorem ascends_addLink {links : List (Nat × List Link)} (ascending : Ascends links) :
    Ascends (addLink state link links) := by
  induction links with
  | nil => simp [addLink, Ascends]
  | cons first rest ih =>
      obtain ⟨present, own⟩ := first
      obtain ⟨before, tail⟩ := List.pairwise_cons.1 ascending
      simp only [addLink]
      split
      · rename_i less
        refine List.pairwise_cons.2 ⟨fun entry member => ?_, ascending⟩
        rcases List.mem_cons.1 member with rfl | member
        · exact less
        · exact Nat.lt_trans less (before entry member)
      · split
        · rename_i less
          refine List.pairwise_cons.2 ⟨fun entry member => ?_, ih tail⟩
          have key := mem_addLink_states.1 (List.mem_map_of_mem (f := (·.1)) member)
          rcases key with same | member
          · exact same ▸ less
          · obtain ⟨earlier, inRest, same⟩ := List.mem_map.1 member
            exact same ▸ before earlier inRest
        · exact List.pairwise_cons.2 ⟨before, tail⟩

/-- A column after links were made in it. -/
structure Grows (column after : Column) : Prop where
  fresh : ∃ fresh, after.waiting = fresh ++ column.waiting ∧
    after.allLinks.Perm (fresh ++ column.allLinks)
  states : ∀ state ∈ column.states, state ∈ after.states

theorem Grows.refl : column.Grows column :=
  ⟨⟨[], rfl, .refl _⟩, fun _ member => member⟩

theorem Grows.trans {last : Column} (first : column.Grows after) (second : after.Grows last) :
    column.Grows last := by
  obtain ⟨early, waiting, links⟩ := first.fresh
  obtain ⟨late, waitingLast, linksLast⟩ := second.fresh
  refine ⟨⟨late ++ early, ?_, ?_⟩, fun state member => second.states _ (first.states _ member)⟩
  · rw [waitingLast, waiting, List.append_assoc]
  · rw [List.append_assoc]
    exact linksLast.trans (links.append_left late)

theorem Grows.mem_waiting (grows : column.Grows after) {entry : Nat × Link}
    (member : entry ∈ column.waiting) : entry ∈ after.waiting := by
  obtain ⟨fresh, waiting, -⟩ := grows.fresh
  exact waiting ▸ List.mem_append_right _ member

theorem Grows.waits_or_before (grows : column.Grows after) {entry : Nat × Link}
    (member : entry ∈ after.allLinks) : entry ∈ after.waiting ∨ entry ∈ column.allLinks := by
  obtain ⟨fresh, waiting, links⟩ := grows.fresh
  rcases List.mem_append.1 (links.mem_iff.1 member) with new | before
  · exact .inl (waiting ▸ List.mem_append_left _ new)
  · exact .inr before

/-- Links that were taken up stay as many as they are. -/
theorem Grows.balance (grows : column.Grows after) :
    after.allLinks.length + column.waiting.length =
      column.allLinks.length + after.waiting.length := by
  obtain ⟨fresh, waiting, links⟩ := grows.fresh
  rw [links.length_eq, waiting, List.length_append, List.length_append]
  omega

section

variable (tidy : column.Tidy)
include tidy

theorem link_of_mem (member : (state, link) ∈ column.allLinks) : column.link state link = column := by
  unfold Column.link
  rw [if_pos (List.contains_iff_mem.2 (tidy.mem_getD_iff.2 member))]

theorem link_of_not_mem (new : (state, link) ∉ column.allLinks) : column.link state link =
    { links := addLink state link column.links, waiting := (state, link) :: column.waiting } := by
  unfold Column.link
  rw [if_neg fun member => new (tidy.mem_getD_iff.1 (List.contains_iff_mem.1 member))]

theorem mem_link_states : other ∈ (column.link state link).states ↔
    other = state ∨ other ∈ column.states := by
  by_cases member : (state, link) ∈ column.allLinks
  · rw [link_of_mem tidy member]
    refine ⟨.inr, ?_⟩
    intro given
    rcases given with rfl | before
    · exact mem_states_of_mem_allLinks member
    · exact before
  · rw [link_of_not_mem tidy member]
    exact mem_addLink_states

theorem mem_link {entry : Nat × Link} : entry ∈ (column.link state link).allLinks ↔
    entry = (state, link) ∨ entry ∈ column.allLinks := by
  by_cases member : (state, link) ∈ column.allLinks
  · rw [link_of_mem tidy member]
    refine ⟨.inr, ?_⟩
    intro given
    rcases given with rfl | before
    · exact member
    · exact before
  · rw [link_of_not_mem tidy member]
    exact flat_addLink.mem_iff.trans List.mem_cons

theorem tidy_link : (column.link state link).Tidy := by
  by_cases member : (state, link) ∈ column.allLinks
  · rw [link_of_mem tidy member]
    exact tidy
  · rw [link_of_not_mem tidy member]
    have links : (flat (addLink state link column.links)).Perm ((state, link) :: column.allLinks) :=
      flat_addLink
    refine ⟨ascends_addLink tidy.ascending, ?_, fun waits inWaiting => ?_, ?_⟩
    · exact links.nodup_iff.2 (List.nodup_cons.2 ⟨member, tidy.distinct⟩)
    · refine links.mem_iff.2 (List.mem_cons.2 ?_)
      exact (List.mem_cons.1 inWaiting).imp_right (tidy.waiting waits)
    · have fewer := tidy.fewer
      simp only [allLinks, links.length_eq, List.length_cons]
      simpa [allLinks] using fewer

theorem grows_link : column.Grows (column.link state link) := by
  by_cases member : (state, link) ∈ column.allLinks
  · rw [link_of_mem tidy member]
    exact .refl
  · refine ⟨?_, fun other before => (mem_link_states tidy).2 (.inr before)⟩
    rw [link_of_not_mem tidy member]
    exact ⟨[(state, link)], rfl, flat_addLink⟩

end

theorem tidy_empty : Column.empty.Tidy :=
  ⟨.nil, .nil, by simp [empty], by simp [empty]⟩

end QueryGrammar.Column
