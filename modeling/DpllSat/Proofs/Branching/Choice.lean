import DpllSat.Proofs.Branching.Scores

/-! When there is a variable to branch on, and that it is one of the formula. The weight plays no
part in this, whatever float it is. -/
namespace DpllSat
namespace Branching

theorem foldl_better_eq_none_iff {best : Option (Var × Float)} {cs : List (Var × Float)} :
    cs.foldl better best = none ↔ best = none ∧ cs = [] := by
  induction cs generalizing best with
  | nil => simp
  | cons c cs ih =>
    have hb : better best c ≠ none := by
      unfold better
      split
      · split <;> simp
      · simp
    simp [ih, hb]

theorem pick_eq_none_iff {weight : Float} {F : Formula} :
    pick weight F = none ↔ ∀ c ∈ F, c = [] := by
  have hv : pick weight F = none ↔ ∀ w, w ∉ (Scores.ofFormula weight F).vars := by
    rw [pick, Option.map_eq_none_iff, foldl_better_eq_none_iff, Scores.toList]
    simp [List.eq_nil_iff_forall_not_mem]
  rw [hv]
  constructor
  · intro h c hc
    rw [List.eq_nil_iff_forall_not_mem]
    intro l hl
    exact h l.var (Scores.mem_vars_ofFormula_iff.2 ⟨c, hc, l, hl, rfl⟩)
  · intro h w hw
    obtain ⟨c, hc, l, hl, -⟩ := Scores.mem_vars_ofFormula_iff.1 hw
    rw [h c hc] at hl
    cases hl

theorem occurs_of_pick {weight : Float} {F : Formula} {v : Var} (h : pick weight F = some v) :
    Occurs v F := mem_of_pick h

/-- A formula that is neither empty nor plainly contradictory has a variable to branch on. -/
theorem exists_pick {F : Formula} (weight : Float) (hF : F ≠ []) (hn : [] ∉ F) :
    ∃ v, pick weight F = some v := by
  cases h : pick weight F with
  | some v => exact ⟨v, rfl⟩
  | none =>
    cases F with
    | nil => exact absurd rfl hF
    | cons c F =>
      have hc := pick_eq_none_iff.1 h c List.mem_cons_self
      exact absurd (hc ▸ List.mem_cons_self) hn

end Branching
end DpllSat
