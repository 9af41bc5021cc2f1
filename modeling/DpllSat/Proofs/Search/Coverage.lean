import DpllSat.Proofs.Branching.Choice
import DpllSat.Proofs.Search.Turns
import DpllSat.Proofs.UnitPropagation

/-! The pending frames together cover every assignment that satisfies the root formula,
whatever variables are picked on the way. -/
namespace DpllSat

open Propagation

theorem Branch.satisfies_of_propagate {a : Assignment} {b : Branch}
    (ha : a.Satisfies b.formula) : ∃ c, b.propagate = some c ∧ a.Satisfies c.formula := by
  cases hG : (Propagation.propagate b.formula).residual? with
  | none => exact absurd ha (not_satisfies_of_propagate hG a)
  | some G =>
    have hs := (unitSteps_of_propagate hG).1
    have hb : b.propagate = some ⟨G, b.trail ++ (Propagation.propagate b.formula).forced⟩ := by
      simp [Branch.propagate, hG]
    exact ⟨_, hb, ((hs.satisfies_iff a).1 ha).2⟩

namespace Search

/-- The assignment is among those that the frame stands for. -/
def Frame.Admits (f : Frame) (a : Assignment) : Prop :=
  a.Satisfies f.branch.formula ∧ ∀ l, f.decision? = some l → a.Holds l

variable {a : Assignment} {f : Frame} {s t : State} {weight : Float}

theorem Frame.Admits.enter (h : f.Admits a) :
    ∃ b, f.enter = some b ∧ a.Satisfies b.formula := by
  cases hd : f.decision? with
  | none => exact ⟨f.branch, by simp [Frame.enter, hd], h.1⟩
  | some l =>
    have hl := h.2 l hd
    cases hG : Propagation.assume l f.branch.formula with
    | none => exact absurd h.1 (not_satisfies_of_assume hG hl)
    | some G =>
      refine ⟨⟨G, f.branch.trail ++ [l]⟩, ?_, (satisfies_of_assume hG hl).2 h.1⟩
      simp [Frame.enter, hd, Branch.assume, hG]

/-- The halves of a split share out the assignments by the value of the variable. -/
theorem admits_of_split {c : Branch} (v : Var) (hc : a.Satisfies c.formula) :
    (Frame.mk c (some ⟨v, true⟩)).Admits a ∨ (Frame.mk c (some ⟨v, false⟩)).Admits a := by
  cases hv : a v with
  | true => exact Or.inl ⟨hc, fun l hl => by cases hl; exact hv⟩
  | false => exact Or.inr ⟨hc, fun l hl => by cases hl; exact hv⟩

theorem admits_of_exit (hf : f.Admits a) (h : Exit weight f s (.more t)) :
    ∃ g ∈ t.stack, g.Admits a := by
  obtain ⟨b, hb, hab⟩ := hf.enter
  obtain ⟨c, hc, hac⟩ := Branch.satisfies_of_propagate hab
  cases h with
  | refused he => simp [hb] at he
  | refuted he hp =>
    cases hb.symm.trans he
    simp [hc] at hp
  | stuck he hp hne hv =>
    cases hb.symm.trans he
    cases hc.symm.trans hp
    obtain ⟨d, hd⟩ := List.exists_mem_of_ne_nil _ hne
    obtain ⟨l, hl, -⟩ := hac d hd
    rw [Branching.pick_eq_none_iff.1 hv d hd] at hl
    cases hl
  | @split b' c' v he hp _ _ =>
    cases hb.symm.trans he
    cases hc.symm.trans hp
    rcases admits_of_split v hac with h | h
    · exact ⟨_, by simp, h⟩
    · exact ⟨_, by simp, h⟩

theorem stack_subset_of_exit (h : Exit weight f s (.more t)) : ∀ g ∈ s.stack, g ∈ t.stack := by
  intro g hg
  rcases h.conflict_or_split with ⟨hstack, -⟩ | ⟨b, c, v, -, -, -, -, hstack, -⟩
  · rw [hstack]
    exact hg
  · rw [hstack]
    exact List.mem_cons_of_mem _ (List.mem_cons_of_mem _ hg)

theorem admits_of_reachable {F : Formula} (ha : a.Satisfies F) (h : Reachable weight F s) :
    ∃ f ∈ s.stack, f.Admits a := by
  refine h.invariant (P := fun s => ∃ f ∈ s.stack, f.Admits a) ?_ ?_
  · exact ⟨⟨⟨F, []⟩, none⟩, by simp [State.start], ha, by simp⟩
  · rintro f rest stats t ⟨g, hg, hga⟩ ht
    rcases List.mem_cons.1 hg with rfl | hg
    · exact admits_of_exit hga ht
    · exact ⟨g, stack_subset_of_exit ht g hg, hga⟩

end Search
end DpllSat
