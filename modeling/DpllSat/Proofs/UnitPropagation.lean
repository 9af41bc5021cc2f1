import DpllSat.Proofs.Reduction

/-! Unit propagation as a relation that may take the unit clauses in any order. What it
preserves holds of every such run, and so of the one that is computed. -/
namespace DpllSat
namespace Propagation

/-- Assuming the literals `U` in turn leads from one formula to another, and each of them
is a unit clause when its turn comes. -/
inductive UnitSteps : Formula → List Lit → Formula → Prop
  | done (F : Formula) : UnitSteps F [] F
  | step {F H G : Formula} {l : Lit} {U : List Lit} :
    [l] ∈ F → assume l F = some H → UnitSteps H U G → UnitSteps F (l :: U) G

namespace UnitSteps

variable {F G : Formula} {U : List Lit}

theorem occurs (h : UnitSteps F U G) : ∀ l ∈ U, Occurs l.var F := by
  induction h with
  | done F => simp
  | @step F H G l U hl ha _ ih =>
    intro k hk
    rcases List.mem_cons.1 hk with rfl | hk
    · exact ⟨[k], hl, k, by simp, rfl⟩
    · rw [← reduce_of_assume ha] at ih
      exact (occurs_of_reduce (ih k hk)).1

theorem var_ne {H : Formula} {l : Lit} (ha : assume l F = some H) (h : UnitSteps H U G) :
    ∀ k ∈ U, k.var ≠ l.var := by
  intro k hk
  have ho := h.occurs k hk
  rw [← reduce_of_assume ha] at ho
  exact ((occurs_of_reduce ho).2 l (by simp)).symm

theorem nodup_var (h : UnitSteps F U G) : (U.map Lit.var).Nodup := by
  induction h with
  | done F => simp
  | step _ ha h ih =>
    rw [List.map_cons, List.nodup_cons]
    refine ⟨fun hm => ?_, ih⟩
    obtain ⟨k, hk, hv⟩ := List.mem_map.1 hm
    exact var_ne ha h k hk hv

/-- The order of the steps does not show in the formula they lead to. -/
theorem reduce_eq (h : UnitSteps F U G) : reduce U F = G := by
  induction h with
  | done F => exact reduce_nil F
  | @step F H G l U _ ha h ih =>
    have hU : ∀ k ∈ U, k.neg ∉ [l] := by
      intro k hk
      rw [List.mem_singleton]
      exact Lit.neg_ne_of_var_ne (var_ne ha h k hk)
    calc reduce (l :: U) F = reduce U (reduce [l] F) := reduce_append hU F
      _ = reduce U H := by rw [reduce_of_assume ha]
      _ = G := ih

theorem not_occurs (h : UnitSteps F U G) : ∀ l ∈ U, ¬ Occurs l.var G := by
  intro l hl ho
  rw [← h.reduce_eq] at ho
  exact (occurs_of_reduce ho).2 l hl rfl

theorem length_le (h : UnitSteps F U G) : U.length + G.length ≤ F.length := by
  induction h with
  | done F => simp
  | step hl ha _ ih =>
    have hlt := length_assume_lt hl ha
    rw [List.length_cons]
    omega

theorem nil_mem (h : UnitSteps F U G) (hG : [] ∈ G) : [] ∈ F := by
  induction h with
  | done F => exact hG
  | step _ ha _ ih => exact nil_mem_of_assume ha (ih hG)

/-- The assumed literals and what is left say together what the formula said. -/
theorem satisfies_iff (h : UnitSteps F U G) (a : Assignment) :
    a.Satisfies F ↔ (∀ l ∈ U, a.Holds l) ∧ a.Satisfies G := by
  induction h with
  | done F => simp
  | @step F H G l U hl ha _ ih =>
    rw [List.forall_mem_cons, and_assoc, ← ih]
    constructor
    · intro hF
      have hal : a.Holds l := by simpa using hF [l] hl
      exact ⟨hal, (satisfies_of_assume ha hal).2 hF⟩
    · rintro ⟨hal, hH⟩
      exact (satisfies_of_assume ha hal).1 hH

end UnitSteps

theorem unit?_eq_none_iff {F : Formula} : unit? F = none ↔ ∀ l, [l] ∉ F := by
  fun_induction unit? F with
  | case1 => simp
  | case2 k F =>
    refine iff_of_false (by simp) fun h => ?_
    exact h k List.mem_cons_self
  | case3 c F hc ih =>
    have hne (l : Lit) : [l] ≠ c := fun e => hc l e.symm
    simp [ih, hne]

variable {F G : Formula}

theorem propagate_of_not_unit (h : ∀ l, [l] ∉ F) : propagate F = ⟨[], some F⟩ := by
  have hu := unit?_eq_none_iff.2 h
  unfold propagate
  split
  · rfl
  · rename_i l hl
    rw [hu] at hl
    cases hl

theorem propagate_of_unit? {l : Lit} (hu : unit? F = some l) :
    propagate F = match assume l F with
      | none => ⟨[], none⟩
      | some H => ⟨l :: (propagate H).forced, (propagate H).residual?⟩ := by
  rw [propagate]
  split
  · simp_all
  · split <;> simp_all

theorem unitSteps_of_propagate (h : (propagate F).residual? = some G) :
    UnitSteps F (propagate F).forced G ∧ ∀ l, [l] ∉ G := by
  fun_induction propagate F with
  | case1 F hu =>
    cases h
    exact ⟨.done _, unit?_eq_none_iff.1 hu⟩
  | case2 F l _ _ => cases h
  | case3 F l hu H ha rest ih =>
    obtain ⟨hs, hG⟩ := ih h
    exact ⟨.step (mem_of_unit? hu) ha hs, hG⟩

/-- A contradiction comes from a unit clause that cannot be assumed. -/
theorem unitSteps_of_propagate_none (h : (propagate F).residual? = none) :
    ∃ G l, UnitSteps F (propagate F).forced G ∧ [l] ∈ G ∧ assume l G = none := by
  fun_induction propagate F with
  | case1 F _ => cases h
  | case2 F l hu ha => exact ⟨F, l, .done F, mem_of_unit? hu, ha⟩
  | case3 F l hu H ha rest ih =>
    obtain ⟨G, k, hs, hk, hn⟩ := ih h
    exact ⟨G, k, .step (mem_of_unit? hu) ha hs, hk, hn⟩

theorem not_satisfies_of_propagate (h : (propagate F).residual? = none) (a : Assignment) :
    ¬ a.Satisfies F := by
  intro hF
  obtain ⟨G, l, hs, hl, hn⟩ := unitSteps_of_propagate_none h
  have hG := ((hs.satisfies_iff a).1 hF).2
  have hal : a.Holds l := by simpa using hG [l] hl
  exact not_satisfies_of_assume hn hal hG

end Propagation

namespace Branch

theorem propagate_of_not_unit {b : Branch} (h : ∀ l, [l] ∉ b.formula) :
    b.propagate = some b := by
  simp [propagate, Propagation.propagate_of_not_unit h]

theorem not_unit_of_propagate {b c : Branch} (hc : b.propagate = some c) :
    ∀ l, [l] ∉ c.formula := by
  obtain ⟨G, hG, rfl⟩ := Option.map_eq_some_iff.1 hc
  exact (Propagation.unitSteps_of_propagate hG).2

end Branch
end DpllSat
