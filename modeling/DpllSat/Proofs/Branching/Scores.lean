import DpllSat.Branching
import DpllSat.Proofs.Assignment
import Mathlib.Data.List.Induction

/-! The scores of the variables of a formula: which variables have one, in which order they are
listed, and of which occurrences each score is the sum. -/
namespace DpllSat
namespace Branching

/-- The variables of a formula as they occur, clause by clause and literal by literal. -/
def varSequence (F : Formula) : List Var := F.flatten.map Lit.var

theorem mem_varSequence_iff {F : Formula} {v : Var} : v ∈ varSequence F ↔ Occurs v F := by
  simp [varSequence, Occurs]

def occurrences (weight : Float) (F : Formula) : List (Var × Float) :=
  F.flatMap fun c => c.map fun l => (l.var, share weight c.length)

theorem map_fst_occurrences (weight : Float) (F : Formula) :
    (occurrences weight F).map Prod.fst = varSequence F := by
  simp [occurrences, varSequence, List.map_flatten, List.flatMap, Function.comp_def]

theorem eraseDups_append_singleton {α : Type} [DecidableEq α] (xs : List α) (x : α) :
    (xs ++ [x]).eraseDups = if x ∈ xs then xs.eraseDups else xs.eraseDups ++ [x] := by
  rw [List.eraseDups_append]
  by_cases h : x ∈ xs <;> simp [List.removeAll, h, List.eraseDups_cons]

namespace Scores

theorem ofFormula_eq_foldl (weight : Float) (F : Formula) :
    ofFormula weight F = (occurrences weight F).foldl (fun s o => s.add o.1 o.2) empty := by
  simp only [ofFormula, occurrences, List.foldl_flatMap, List.foldl_map]
  rfl

def Listed (s : Scores) : Prop := ∀ v, v ∈ s.vars ↔ v ∈ s.score

theorem listed_empty : Listed empty := by
  simp [Listed, empty]

theorem vars_add {s : Scores} (hs : s.Listed) (v : Var) (x : Float) :
    (s.add v x).vars.toList = if v ∈ s.vars then s.vars.toList else s.vars.toList ++ [v] := by
  unfold add
  split
  · rename_i y hy
    have hv : v ∈ s.vars := (hs v).2 (Std.HashMap.mem_iff_isSome_getElem?.2 (by simp [hy]))
    simp [hv]
  · rename_i hn
    have hv : v ∉ s.vars := by simp [hs v, Std.HashMap.mem_iff_isSome_getElem?, hn]
    simp [hv]

theorem mem_score_add (s : Scores) (v w : Var) (x : Float) :
    w ∈ (s.add v x).score ↔ w = v ∨ w ∈ s.score := by
  unfold add
  split <;> simp [Std.HashMap.mem_insert, @eq_comm _ v]

theorem listed_add {s : Scores} (hs : s.Listed) (v : Var) (x : Float) : (s.add v x).Listed := by
  intro w
  rw [mem_score_add, ← hs w, ← Array.mem_toList_iff, vars_add hs]
  split
  · rename_i hv
    refine ⟨fun h => Or.inr (by simpa using h), ?_⟩
    rintro (rfl | h) <;> simpa
  · simp [or_comm]

/-- Adding the scores of a list of occurrences lists the variables in the order in which they
first occur. -/
theorem foldl_add (os : List (Var × Float)) :
    (os.foldl (fun s o => s.add o.1 o.2) empty).Listed ∧
      (os.foldl (fun s o => s.add o.1 o.2) empty).vars.toList = (os.map Prod.fst).eraseDups := by
  induction os using List.reverseRecOn with
  | nil => exact ⟨listed_empty, rfl⟩
  | append_singleton os o ih =>
    obtain ⟨hl, hv⟩ := ih
    rw [List.foldl_append, List.map_append]
    refine ⟨listed_add hl o.1 o.2, ?_⟩
    have hm : o.1 ∈ os.map Prod.fst ↔
        o.1 ∈ (os.foldl (fun s o => s.add o.1 o.2) empty).vars := by
      rw [← Array.mem_toList_iff, hv, List.mem_eraseDups]
    simp only [List.foldl_cons, List.foldl_nil, vars_add hl, hv, List.map_cons, List.map_nil,
      eraseDups_append_singleton, hm]

theorem vars_ofFormula (weight : Float) (F : Formula) :
    (ofFormula weight F).vars.toList = (varSequence F).eraseDups := by
  rw [ofFormula_eq_foldl, (foldl_add _).2, map_fst_occurrences]

theorem mem_vars_ofFormula_iff {weight : Float} {F : Formula} {w : Var} :
    w ∈ (ofFormula weight F).vars ↔ Occurs w F := by
  rw [← Array.mem_toList_iff, vars_ofFormula, List.mem_eraseDups, mem_varSequence_iff]

end Scores

def scoreOf (weight : Float) (F : Formula) (v : Var) : Float :=
  (Scores.ofFormula weight F).score.getD v 0.0

theorem Scores.getD_score_add (s : Scores) (v w : Var) (x : Float) :
    (s.add v x).score.getD w 0.0 =
      if v = w then s.score.getD w 0.0 + x else s.score.getD w 0.0 := by
  unfold add
  split
  · rename_i y hy
    by_cases h : v = w
    · subst h
      simp [Std.HashMap.getD_eq_getD_getElem?, hy]
    · simp [Std.HashMap.getD_insert, h]
  · rename_i hn
    by_cases h : v = w
    · subst h
      simp [Std.HashMap.getD_eq_getD_getElem?, hn]
    · simp [Std.HashMap.getD_insert, h]

/-- A score is the sum of what the occurrences of its variable score, in their order. -/
theorem scoreOf_eq_foldl (weight : Float) (F : Formula) (v : Var) :
    scoreOf weight F v =
      ((occurrences weight F).filter (·.1 = v)).foldl (fun x o => x + o.2) 0.0 := by
  rw [scoreOf, Scores.ofFormula_eq_foldl]
  induction occurrences weight F using List.reverseRecOn with
  | nil => simp [Scores.empty]
  | append_singleton os o ih =>
    rw [List.foldl_append, List.filter_append, List.foldl_append, ← ih]
    by_cases h : o.1 = v <;> simp [Scores.getD_score_add, h]

theorem toList_ofFormula (weight : Float) (F : Formula) :
    (Scores.ofFormula weight F).toList =
      (varSequence F).eraseDups.map fun v => (v, scoreOf weight F v) := by
  rw [Scores.toList, Scores.vars_ofFormula]
  rfl

end Branching
end DpllSat
