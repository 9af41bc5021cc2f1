import DpllSat.Proofs.UnitPropagation

/-! Unit propagation keeps the meaning of a formula and stops where it has nothing more to do. What
it puts on the trail and what it leaves of the formula have no variable in common, and say together
what the formula said. -/
namespace DpllSat
namespace Branch

open Propagation

/-- From `b`, assuming the literals `U` has led to `c`, and there is nothing more to propagate. -/
structure Fixpoint (b : Branch) (U : List Lit) (c : Branch) : Prop where
  trail_eq : c.trail = b.trail ++ U
  nodup_var : (U.map Lit.var).Nodup
  not_occurs : ∀ l ∈ U, ¬ Occurs l.var c.formula
  satisfies_iff : ∀ a : Assignment,
    a.Satisfies b.formula ↔ (∀ l ∈ U, a.Holds l) ∧ a.Satisfies c.formula
  not_unit : ∀ l, [l] ∉ c.formula
  length_le : U.length + c.formula.length ≤ b.formula.length
  nil_mem : [] ∈ c.formula → [] ∈ b.formula
  propagate_eq : c.propagate = some c

/-- Propagation comes to a fixpoint that has the same models as what it started from, or to a
contradiction, and then there was no model. -/
theorem propagate_keeps_models (b : Branch) :
    (∀ c, b.propagate = some c → ∃ U, Fixpoint b U c) ∧
    (b.propagate = none → ∀ a : Assignment, ¬ a.Satisfies b.formula) := by
  constructor
  · intro c hc
    have hunit := not_unit_of_propagate hc
    have hstable := propagate_of_not_unit hunit
    obtain ⟨G, hG, rfl⟩ := Option.map_eq_some_iff.1 hc
    have hsteps := (unitSteps_of_propagate hG).1
    exact ⟨_, rfl, hsteps.nodup_var, hsteps.not_occurs, hsteps.satisfies_iff, hunit,
      hsteps.length_le, hsteps.nil_mem, hstable⟩
  · intro hb
    exact not_satisfies_of_propagate (Option.map_eq_none_iff.1 hb)

def mixed : Branch :=
  ⟨[[1], [-1, 2, 2], [], [3, -3]].map (List.filterMap Lit.ofDimacs?),
    [5].filterMap Lit.ofDimacs?⟩

def clash : Branch := ⟨[[1], [-1, 2], [-2, -1]].map (List.filterMap Lit.ofDimacs?), []⟩

theorem propagate_keeps_models_mixed :
    (∃ c U, mixed.propagate = some c ∧ Fixpoint mixed U c ∧ U.length = 1 ∧
      c.formula.length = 3) ∧
    clash.propagate = none ∧ ¬ Satisfiable clash.formula := by
  have hmixed : mixed.propagate = some ⟨[[2, 2], [], [3, -3]].map (List.filterMap Lit.ofDimacs?),
      [5, 1].filterMap Lit.ofDimacs?⟩ := by decide +kernel
  have hclash : clash.propagate = none := by decide +kernel
  obtain ⟨U, hU⟩ := (propagate_keeps_models mixed).1 _ hmixed
  have hlen := congrArg List.length hU.trail_eq
  refine ⟨⟨_, U, hmixed, hU, ?_, rfl⟩, hclash, ?_⟩
  · rw [List.length_append] at hlen
    exact (Nat.add_left_cancel (n := 1) hlen).symm
  · rintro ⟨a, ha⟩
    exact (propagate_keeps_models clash).2 hclash a ha

end Branch
end DpllSat
