import QueryGrammar.Proofs.Forest.Phrase
import QueryGrammar.Proofs.Meaning.Sharing
import QueryGrammar.Proofs.Tree.Choices

namespace QueryGrammar

/-! Candidates as derivations with parts missing.

Main statement: whatever trees fill in the nodes that are still to be expanded, taking an
alternative leads to the same meaning as the tree that takes it, and a candidate is dropped only
if no filling has a meaning.
-/

variable {κ : Type} {kindOf : String → ConceptKind}

def pending : List Step → List Nat
  | [] => []
  | .expand id :: steps => id :: pending steps
  | .close :: steps => pending steps

theorem pending_expand (nodes : List Nat) (steps : List Step) :
    pending (nodes.map Step.expand ++ steps) = nodes ++ pending steps := by
  induction nodes with
  | nil => rfl
  | cons id rest ih => simp [pending, ih]

namespace Search

section

variable {frames others : List (Frame κ)} {own also : List (Meaning κ)}

theorem contribute_costless (same : own.map Meaning.costless = also.map Meaning.costless)
    (alike : frames.map Frame.costless = others.map Frame.costless) :
    (contribute own frames).map Frame.costless = (contribute also others).map Frame.costless := by
  cases frames with
  | nil =>
      rw [List.map_nil] at alike
      rw [List.map_eq_nil_iff.1 alike.symm]
      rfl
  | cons frame outer =>
      cases others with
      | nil => cases alike
      | cons other rest =>
          simp only [List.map_cons, List.cons.injEq, Frame.costless, Frame.mk.injEq] at alike
          simp only [contribute, List.map_cons, Frame.costless, List.map_append, same, alike]

theorem contribute_append (first second : List (Meaning κ)) (frames : List (Frame κ)) :
    contribute second (contribute first frames) = contribute (first ++ second) frames := by
  cases frames with
  | nil => rfl
  | cons frame outer => simp [contribute, List.append_assoc]

theorem close?_congr {frame other : Frame κ} (alike : frame.costless = other.costless) :
    frame.close?.map (List.map Meaning.costless) =
      other.close?.map (List.map Meaning.costless) := by
  rw [← Frame.close?_costless, alike, Frame.close?_costless]

theorem contribute_kinded (kinded : ∀ frame ∈ frames, frame.Kinded kindOf)
    (ownKinded : ∀ meaning ∈ own, meaning.Kinded kindOf) :
    ∀ frame ∈ contribute own frames, frame.Kinded kindOf := by
  cases frames with
  | nil => exact kinded
  | cons frame outer =>
      obtain ⟨first, others⟩ := List.forall_mem_cons.1 kinded
      refine List.forall_mem_cons.2 ⟨⟨first.meaning, fun meaning member => ?_⟩, others⟩
      rcases List.mem_append.1 member with before | last
      · exact first.args meaning before
      · exact ownKinded meaning last

theorem bind_costless {first second : Option (List (Meaning κ))}
    {next onward : List (Meaning κ) → Option (Interpretation κ)}
    (alike : first.map (List.map Meaning.costless) = second.map (List.map Meaning.costless))
    (go : ∀ own also : List (Meaning κ), own.map Meaning.costless = also.map Meaning.costless →
      (next own).map Interpretation.costless = (onward also).map Interpretation.costless) :
    (first.bind next).map Interpretation.costless =
      (second.bind onward).map Interpretation.costless := by
  cases first with
  | none =>
      cases second with
      | none => rfl
      | some also => cases alike
  | some own =>
      cases second with
      | none => cases alike
      | some also => exact go own also (Option.some.inj alike)

end

section

variable [Cost κ] {table : Table κ} {forest : Forest} {frames others : List (Frame κ)}

/-- What comes of steps and frames once every node has been given a tree. -/
def resume (table : Table κ) (forest : Forest) :
    List Step → List (Frame κ) → List Tree → Option (Interpretation κ)
  | [], frame :: _, [] => frame.close?.bind Interpretation.ofRoots?
  | [], _, _ => none
  | .expand _ :: steps, frames, tree :: trees =>
      (tree.yield? table forest).bind fun own =>
        resume table forest steps (contribute own frames) trees
  | .expand _ :: _, _, [] => none
  | .close :: steps, frame :: outer, trees =>
      frame.close?.bind fun own => resume table forest steps (contribute own outer) trees
  | .close :: _, [], _ => none

/-- Costs in frames have no part in what comes of them. -/
theorem resume_congr (steps : List Step) (trees : List Tree)
    (alike : frames.map Frame.costless = others.map Frame.costless) :
    (resume table forest steps frames trees).map Interpretation.costless =
      (resume table forest steps others trees).map Interpretation.costless := by
  induction steps generalizing frames others trees with
  | nil =>
      cases frames with
      | nil =>
          rw [List.map_nil] at alike
          rw [List.map_eq_nil_iff.1 alike.symm]
      | cons frame outer =>
          cases others with
          | nil => cases alike
          | cons other rest =>
              cases trees with
              | cons tree trees => rfl
              | nil =>
                  refine bind_costless (close?_congr (List.cons.inj alike).1) fun own also same => ?_
                  rw [← Interpretation.ofRoots?_costless, same, Interpretation.ofRoots?_costless]
  | cons step steps ih =>
      cases step with
      | expand id =>
          cases trees with
          | nil => rfl
          | cons tree trees =>
              exact bind_costless rfl fun own also same => ih trees (contribute_costless same alike)
      | close =>
          cases frames with
          | nil =>
              rw [List.map_nil] at alike
              rw [List.map_eq_nil_iff.1 alike.symm]
          | cons frame outer =>
              cases others with
              | nil => cases alike
              | cons other rest =>
                  refine bind_costless (close?_congr (List.cons.inj alike).1) fun own also same => ?_
                  exact ih trees (contribute_costless same (List.cons.inj alike).2)

/-- Trees for several nodes in a row hand what they contribute to the innermost frame. -/
theorem resume_children (children : List Nat) (steps : List Step) (frames : List (Frame κ))
    (parts trees : List Tree) (enough : parts.length = children.length) :
    resume table forest (children.map Step.expand ++ steps) frames (parts ++ trees) =
      (Tree.yields? table forest parts).bind fun own =>
        resume table forest steps (contribute own frames) trees := by
  induction children generalizing frames parts with
  | nil =>
      rw [List.length_nil, List.length_eq_zero_iff] at enough
      subst enough
      have unchanged : contribute [] frames = frames := by
        cases frames with
        | nil => rfl
        | cons frame outer => simp [contribute]
      simp [Tree.yields?, unchanged]
  | cons id rest ih =>
      cases parts with
      | nil => cases enough
      | cons part parts =>
          simp only [List.map_cons, List.cons_append, resume, Tree.yields?]
          cases part.yield? table forest with
          | none => rfl
          | some own =>
              simp only [Option.bind_some]
              rw [ih _ parts (Nat.succ_inj.1 enough)]
              cases Tree.yields? table forest parts with
              | none => rfl
              | some others => simp only [Option.bind_some, contribute_append]

end

/-! Closing frames. -/

section

variable [Cost κ] {share : Sharing κ} {InUse : Pool κ → Prop}

/-- Where steps and frames have settled. -/
structure Settled (table : Table κ) (forest : Forest) (kindOf : String → ConceptKind)
    (steps : List Step) (frames : List (Frame κ)) (steps' : List Step)
    (frames' : List (Frame κ)) : Prop where
  kinded : ∀ frame ∈ frames', frame.Kinded kindOf
  pending : pending steps' = pending steps
  open_ : ∀ rest, steps' ≠ .close :: rest
  resume : ∀ trees, (resume table forest steps frames trees).map Interpretation.costless =
    (Search.resume table forest steps' frames' trees).map Interpretation.costless

theorem settle_spec (table : Table κ) (forest : Forest)
    (faithful : share.Faithful kindOf InUse) (steps : List Step) {pool : Pool κ}
    {frames : List (Frame κ)} (inUse : InUse pool) (kinded : ∀ frame ∈ frames, frame.Kinded kindOf) :
    InUse (settle share pool steps frames).2 ∧
      ((settle share pool steps frames).1 = none →
        ∀ trees, resume table forest steps frames trees = none) ∧
      ∀ steps' frames', (settle share pool steps frames).1 = some (steps', frames') →
        Settled table forest kindOf steps frames steps' frames' := by
  induction steps generalizing pool frames with
  | nil =>
      refine ⟨inUse, by simp [settle], fun steps' frames' settled => ?_⟩
      simp only [settle, Option.some.injEq, Prod.mk.injEq] at settled
      obtain ⟨rfl, rfl⟩ := settled
      exact ⟨kinded, rfl, by simp, fun trees => rfl⟩
  | cons step steps ih =>
      cases step with
      | expand id =>
          refine ⟨inUse, by simp [settle], fun steps' frames' settled => ?_⟩
          simp only [settle, Option.some.injEq, Prod.mk.injEq] at settled
          obtain ⟨rfl, rfl⟩ := settled
          exact ⟨kinded, rfl, by simp, fun trees => rfl⟩
      | close =>
          cases frames with
          | nil => exact ⟨inUse, by simp [settle, resume], by simp [settle]⟩
          | cons frame outer =>
              obtain ⟨first, others⟩ := List.forall_mem_cons.1 kinded
              cases closed : frame.close? with
              | none => exact ⟨by simpa [settle, closed], by simp [settle, resume, closed],
                  by simp [settle, closed]⟩
              | some meanings =>
                  have own := Frame.close?_kinded closed first
                  obtain ⟨same, shared, later⟩ := faithful.shareAll inUse own
                  obtain ⟨still, dropped, settled⟩ :=
                    ih later (contribute_kinded others shared)
                  have alike : ∀ trees,
                      (resume table forest (.close :: steps) (frame :: outer) trees).map
                          Interpretation.costless =
                        (resume table forest steps (contribute
                          (shareAll share pool meanings).1 outer) trees).map
                            Interpretation.costless := by
                    intro trees
                    simp only [resume, closed, Option.bind_some]
                    exact resume_congr steps trees (contribute_costless same.symm rfl)
                  simp only [settle, closed]
                  refine ⟨still, fun nothing trees => ?_, fun steps' frames' found => ?_⟩
                  · have none := alike trees
                    rw [dropped nothing trees, Option.map_none, Option.map_eq_none_iff] at none
                    exact none
                  · have inner := settled steps' frames' found
                    exact ⟨inner.kinded, inner.pending, inner.open_,
                      fun trees => (alike trees).trans (inner.resume trees)⟩

end

end Search

end QueryGrammar
