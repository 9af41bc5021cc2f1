import DpllSat.Proofs.Assignment
import DpllSat.Valuation
import Mathlib.Data.List.Range

/-! The completion of a trail to a model over all variables, and the largest variable that a
formula mentions. -/
namespace DpllSat
namespace Valuation

/-- A literal of a list that names no variable twice decides its variable. -/
theorem getElem?_ofLits_of_mem {T : List Lit} (hT : (T.map Lit.var).Nodup) {l : Lit}
    (hl : l ∈ T) : (ofLits T)[l.var]? = some l.positive := by
  rw [getElem?_ofLits]
  cases hk : T.reverse.find? fun k => k.var == l.var with
  | none =>
    have hn := List.find?_eq_none.1 hk l (List.mem_reverse.2 hl)
    simp at hn
  | some k =>
    have hv : k.var = l.var := by simpa using List.find?_some hk
    have hm : k ∈ T := List.mem_reverse.1 (List.mem_of_find?_eq_some hk)
    rw [List.inj_on_of_nodup_map hT hm hl hv]
    rfl

theorem getElem?_ofLits_of_notMem {T : List Lit} {v : Var} (h : ∀ l ∈ T, l.var ≠ v) :
    (ofLits T)[v]? = none := by
  rw [getElem?_ofLits, Option.map_eq_none_iff, List.find?_eq_none]
  simpa using h

theorem mem_complete_iff {n : Nat} {T : List Lit} {l : Lit} :
    l ∈ complete n T ↔ l.var.index ≤ n ∧ l.positive = (ofLits T)[l.var]?.getD true := by
  simp only [complete, List.mem_filterMap, List.mem_range, Option.map_eq_some_iff,
    Var.of?_eq_some_iff]
  constructor
  · rintro ⟨i, hi, v, hv, rfl⟩
    exact ⟨by simp only [hv]; omega, rfl⟩
  · rintro ⟨hn, hp⟩
    have hpos := l.var.pos
    refine ⟨l.var.index - 1, by omega, l.var, by omega, ?_⟩
    rw [← hp]

/-- The completion of a trail contains the trail. -/
theorem mem_complete_of_mem {n : Nat} {T : List Lit} (hT : (T.map Lit.var).Nodup) {l : Lit}
    (hl : l ∈ T) (hn : l.var.index ≤ n) : l ∈ complete n T := by
  rw [mem_complete_iff, getElem?_ofLits_of_mem hT hl]
  exact ⟨hn, rfl⟩

/-- A completion names the variables `1, …, n` in order. -/
theorem map_index_complete {n : Nat} (hn : n ≤ maxVariable) (T : List Lit) :
    (complete n T).map (fun l => l.var.index) = (List.range n).map (· + 1) := by
  rw [complete, List.map_filterMap, ← List.filterMap_eq_map]
  apply List.filterMap_congr
  intro i hi
  have hi := List.mem_range.1 hi
  have ho : Var.of? (i + 1) = some ⟨i + 1, by omega, by omega⟩ := by
    rw [Var.of?_eq_some_iff]
  simp [ho]

theorem length_complete {n : Nat} (hn : n ≤ maxVariable) (T : List Lit) :
    (complete n T).length = n := by
  simpa using congrArg List.length (map_index_complete hn T)

theorem index_getElem_complete {n : Nat} (hn : n ≤ maxVariable) (T : List Lit) (i : Nat)
    (hi : i < (complete n T).length) : (complete n T)[i].var.index = i + 1 := by
  have h : ((complete n T).map fun l => l.var.index)[i]? = ((List.range n).map (· + 1))[i]? := by
    rw [map_index_complete hn]
  have hin : i < n := length_complete hn T ▸ hi
  simpa [List.getElem?_eq_getElem hi, hin] using h

theorem nodup_var_complete {n : Nat} (hn : n ≤ maxVariable) (T : List Lit) :
    ((complete n T).map Lit.var).Nodup := by
  have h : (((complete n T).map Lit.var).map Var.index).Nodup := by
    rw [List.map_map]
    exact map_index_complete hn T ▸ List.nodup_range.map (fun i j h => Nat.succ.inj h)
  exact h.of_map

end Valuation

theorem foldl_max_le_iff {α : Type} (g : α → Nat) (xs : List α) (b n : Nat) :
    xs.foldl (fun m x => max m (g x)) b ≤ n ↔ b ≤ n ∧ ∀ x ∈ xs, g x ≤ n := by
  induction xs generalizing b with
  | nil => simp
  | cons x xs ih => rw [List.foldl_cons, ih, Nat.max_le, and_assoc, List.forall_mem_cons]

namespace Cnf

theorem maxVar_le_iff {f : Cnf} {n : Nat} :
    f.maxVar ≤ n ↔ ∀ c ∈ f.clauses, ∀ l ∈ c, l.var.index ≤ n := by
  rw [maxVar, ← List.foldl_flatten, foldl_max_le_iff]
  constructor
  · rintro ⟨-, h⟩ c hc l hl
    exact h l (List.mem_flatten.2 ⟨c, hc, hl⟩)
  · intro h
    refine ⟨Nat.zero_le n, fun l hl => ?_⟩
    obtain ⟨c, hc, hl⟩ := List.mem_flatten.1 hl
    exact h c hc l hl

theorem maxVar_le_maxVariable (f : Cnf) : f.maxVar ≤ maxVariable :=
  maxVar_le_iff.2 fun _ _ l _ => l.var.le_max

theorem index_le_maxVar {f : Cnf} {v : Var} (h : Occurs v f.clauses) : v.index ≤ f.maxVar := by
  obtain ⟨c, hc, l, hl, rfl⟩ := h
  exact maxVar_le_iff.1 (Nat.le_refl _) c hc l hl

theorem hasEmptyClause_iff {f : Cnf} : f.hasEmptyClause = true ↔ [] ∈ f.clauses := by
  simp [hasEmptyClause]

end Cnf
end DpllSat
