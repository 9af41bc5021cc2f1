import DpllSat.Proofs.Branching.Scores
import Mathlib.Algebra.Ring.Nat

/-! The scores as sums of powers. What a variable scores depends on nothing but the lengths of the
clauses that its literals are in, in the order in which these occur. -/
namespace DpllSat
namespace Branching

theorem share_eq_power (weight : Float) (n : Nat) :
    share weight n = power weight (-(min n (2 ^ 31 - 1) : Nat)) := rfl

/-- The length of its clause for each literal of `v`, clause by clause and literal by literal. -/
def clauseLengths (v : Var) (F : Formula) : List Nat :=
  F.flatMap fun c => (c.filter fun l => l.var = v).map fun _ => c.length

theorem clauseLengths_eq_nil_iff {v : Var} {F : Formula} :
    clauseLengths v F = [] ↔ ¬ Occurs v F := by
  simp [clauseLengths, Occurs]

theorem map_share_clauseLengths (weight : Float) (v : Var) (F : Formula) :
    (clauseLengths v F).map (share weight) =
      ((occurrences weight F).filter (·.1 = v)).map Prod.snd := by
  simp [clauseLengths, occurrences, List.map_flatMap, List.filter_flatMap, List.filter_map,
    Function.comp_def]

/-- The sum, from the left, of what a literal scores in clauses of the given lengths. The exponent
is the length with a minus sign, and lengths beyond the signed 32-bit words count as the last of
these. -/
def sumOfPowers (weight : Float) (ns : List Nat) : Float :=
  ns.foldl (fun x n => x + power weight (-(min n (2 ^ 31 - 1) : Nat))) 0.0

theorem scoreOf_eq_sumOfPowers (weight : Float) (F : Formula) (v : Var) :
    scoreOf weight F v = sumOfPowers weight (clauseLengths v F) := by
  have hfold : scoreOf weight F v =
      (((occurrences weight F).filter (·.1 = v)).map Prod.snd).foldl (· + ·) 0.0 := by
    rw [scoreOf_eq_foldl, List.foldl_map]
  rw [hfold, ← map_share_clauseLengths, List.foldl_map, sumOfPowers]
  simp only [share_eq_power]

theorem pairwise_eraseDups {α : Type} [DecidableEq α] (xs : List α) :
    xs.eraseDups.Pairwise fun x y => xs.idxOf x < xs.idxOf y := by
  induction xs using List.reverseRecOn with
  | nil => exact .nil
  | append_singleton xs z ih =>
    have hxs : xs.eraseDups.Pairwise fun x y =>
        (xs ++ [z]).idxOf x < (xs ++ [z]).idxOf y := by
      refine ih.imp_of_mem fun hx hy h => ?_
      rw [List.mem_eraseDups] at hx hy
      rwa [List.idxOf_append_of_mem hx, List.idxOf_append_of_mem hy]
    rw [eraseDups_append_singleton]
    split
    · exact hxs
    · rename_i hz
      refine List.pairwise_append.2 ⟨hxs, List.pairwise_singleton _ _, fun x hx y hy => ?_⟩
      rw [List.mem_eraseDups] at hx
      have hlt : xs.idxOf x < xs.length := List.idxOf_lt_length_of_mem hx
      rw [List.mem_singleton.1 hy, List.idxOf_append_of_mem hx, List.idxOf_append_of_notMem hz]
      omega

theorem nodup_eraseDups {α : Type} [DecidableEq α] (xs : List α) : xs.eraseDups.Nodup := by
  refine List.nodup_iff_pairwise_ne.2 ((pairwise_eraseDups xs).imp ?_)
  rintro x _ hlt rfl
  exact Nat.lt_irrefl _ hlt

theorem Scores.mem_score_ofFormula_iff (weight : Float) {F : Formula} {v : Var} :
    v ∈ (ofFormula weight F).score ↔ Occurs v F := by
  have hlisted : (ofFormula weight F).Listed := by
    rw [ofFormula_eq_foldl]
    exact (foldl_add _).1
  rw [← hlisted v, mem_vars_ofFormula_iff]

theorem Scores.getElem?_score_ofFormula (weight : Float) (F : Formula) (v : Var) :
    (ofFormula weight F).score[v]? =
      if clauseLengths v F = [] then none
      else some (sumOfPowers weight (clauseLengths v F)) := by
  split
  · rename_i hnil
    rw [clauseLengths_eq_nil_iff, ← mem_score_ofFormula_iff weight] at hnil
    exact Std.HashMap.getElem?_eq_none hnil
  · rename_i hne
    rw [clauseLengths_eq_nil_iff, not_not, ← mem_score_ofFormula_iff weight] at hne
    have hget : (ofFormula weight F).score[v]? = some (scoreOf weight F v) :=
      Std.HashMap.getElem?_eq_some_getD hne
    rw [hget, scoreOf_eq_sumOfPowers]

/-- The scores of a formula are listed by variable, each variable of the formula once, in the
order in which they first occur. What a variable scores is a sum with a power of the weight for each
of its literals, whatever the sign, in the order in which these occur. It is settled by the lengths
of their clauses, so what other variables score plays no part in it. -/
theorem scores_sum_occurrences (weight : Float) (F : Formula) :
    (∃ vars : List Var,
      (Scores.ofFormula weight F).toList =
        vars.map (fun v => (v, sumOfPowers weight (clauseLengths v F))) ∧
      vars.Nodup ∧ (∀ v, v ∈ vars ↔ Occurs v F) ∧
      vars.Pairwise fun v w => (varSequence F).idxOf v < (varSequence F).idxOf w) ∧
    ∀ v, (Scores.ofFormula weight F).score[v]? =
      if clauseLengths v F = [] then none
      else some (sumOfPowers weight (clauseLengths v F)) := by
  refine ⟨⟨(varSequence F).eraseDups, ?_, nodup_eraseDups _, fun v => ?_, pairwise_eraseDups _⟩,
    Scores.getElem?_score_ofFormula weight F⟩
  · rw [toList_ofFormula]
    simp only [scoreOf_eq_sumOfPowers]
  · rw [List.mem_eraseDups, mem_varSequence_iff]

/-- Both signs count, and so does every repetition in one clause. -/
example : clauseLengths ⟨1, by decide, by decide⟩
    ([[1, 2], [-1, 3, 4], [2], [1, -1, 1]].map (List.filterMap Lit.ofDimacs?)) =
      [2, 3, 3, 3, 3] := by decide

end Branching
end DpllSat
