import DpllSat.Proofs.Branching.Choice
import DpllSat.Proofs.Branching.FloatOrder

/-! The variable that is picked to branch on: where the scores can be compared, it is the first one
of the formula whose score is the highest. -/
namespace DpllSat
namespace Branching

/-- Any two of the floats can be compared, and the comparison is transitive on them. -/
structure Comparable (xs : List Float) : Prop where
  total : ∀ x ∈ xs, ∀ y ∈ xs, x ≤ y ∨ y ≤ x
  trans : ∀ x ∈ xs, ∀ y ∈ xs, ∀ z ∈ xs, x ≤ y → y ≤ z → x ≤ z

theorem Comparable.refl {xs : List Float} (h : Comparable xs) {x : Float} (hx : x ∈ xs) : x ≤ x :=
  (h.total x hx x hx).elim id id

theorem Comparable.subset {xs ys : List Float} (h : Comparable ys) (hs : xs ⊆ ys) :
    Comparable xs where
  total x hx y hy := h.total x (hs hx) y (hs hy)
  trans x hx y hy z hz := h.trans x (hs hx) y (hs hy) z (hs hz)

theorem comparable_of_not_isNaN {xs : List Float} (h : ∀ x ∈ xs, x.isNaN = false) :
    Comparable xs where
  total x hx y hy := float_le_total (h x hx) (h y hy)
  trans x hx y hy z hz := float_le_trans (h x hx) (h y hy) (h z hz)

/-- The score of `b` is at least that of every candidate, and higher than those of the candidates
before `b`. -/
structure FirstBest (cs : List (Var × Float)) (b : Var × Float) : Prop where
  best : ∀ c ∈ cs, c.2 ≤ b.2
  first : ∃ before after, cs = before ++ b :: after ∧ ∀ c ∈ before, ¬ b.2 ≤ c.2

namespace FirstBest

variable {cs : List (Var × Float)} {b c : Var × Float}

theorem singleton (h : c.2 ≤ c.2) : FirstBest [c] c where
  best := by simpa using h
  first := ⟨[], [], rfl, by simp⟩

theorem mem (h : FirstBest cs b) : b ∈ cs := by
  obtain ⟨before, after, rfl, -⟩ := h.first
  simp

theorem keep (h : FirstBest cs b) (hc : c.2 ≤ b.2) : FirstBest (cs ++ [c]) b where
  best d hd := by
    rcases List.mem_append.1 hd with hd | hd
    · exact h.best d hd
    · rwa [List.mem_singleton.1 hd]
  first := by
    obtain ⟨before, after, rfl, hb⟩ := h.first
    exact ⟨before, after ++ [c], by simp, hb⟩

theorem replace (hs : Comparable ((cs ++ [c]).map Prod.snd)) (h : FirstBest cs b)
    (hc : ¬ c.2 ≤ b.2) : FirstBest (cs ++ [c]) c := by
  have hold {d : Var × Float} (hd : d ∈ cs) : d.2 ∈ (cs ++ [c]).map Prod.snd :=
    List.mem_map_of_mem (List.mem_append_left [c] hd)
  have hnew : c.2 ∈ (cs ++ [c]).map Prod.snd := by simp
  have hbc : b.2 ≤ c.2 := (hs.total _ hnew _ (hold h.mem)).resolve_left hc
  constructor
  · intro d hd
    rcases List.mem_append.1 hd with hd | hd
    · exact hs.trans _ (hold hd) _ (hold h.mem) _ hnew (h.best d hd) hbc
    · rw [List.mem_singleton.1 hd]
      exact hs.refl hnew
  · -- a score as high as that of `c` would put `c` below the best so far
    refine ⟨cs, [], rfl, fun d hd hcd => hc ?_⟩
    exact hs.trans _ hnew _ (hold hd) _ (hold h.mem) hcd (h.best d hd)

theorem find?_eq (h : FirstBest cs b) : cs.find? (fun c => ∀ d ∈ cs, d.2 ≤ c.2) = some b := by
  obtain ⟨before, after, he, hb⟩ := h.first
  rw [List.find?_eq_some_iff_append]
  refine ⟨by simpa using fun v x => h.best (v, x), before, after, he, fun c hc => ?_⟩
  have hn : ¬ ∀ d ∈ cs, d.2 ≤ c.2 := fun hall => hb c hc (hall b h.mem)
  simp only [hn, decide_false, Bool.not_false]

end FirstBest

theorem firstBest_of_foldl_better {cs : List (Var × Float)} (hs : Comparable (cs.map Prod.snd))
    {b : Var × Float} (hb : cs.foldl better none = some b) : FirstBest cs b := by
  -- from the end of the list, so that the best of the others is at hand when the last one comes
  induction cs using List.reverseRecOn generalizing b with
  | nil => cases hb
  | append_singleton cs c ih =>
    have hcs : Comparable (cs.map Prod.snd) := hs.subset (by simp)
    rw [List.foldl_append] at hb
    cases ha : cs.foldl better none with
    | none =>
      obtain rfl := (foldl_better_eq_none_iff.1 ha).2
      obtain rfl : c = b := Option.some.inj hb
      exact .singleton (hs.refl (by simp))
    | some a =>
      have h := ih hcs ha
      rw [ha] at hb
      by_cases hc : c.2 ≤ a.2
      · obtain rfl : a = b := by simpa [better, hc] using hb
        exact h.keep hc
      · obtain rfl : c = b := by simpa [better, hc] using hb
        exact h.replace hs hc

theorem foldl_better_eq_find? {cs : List (Var × Float)} (hs : Comparable (cs.map Prod.snd)) :
    cs.foldl better none = cs.find? fun c => ∀ d ∈ cs, d.2 ≤ c.2 := by
  cases hb : cs.foldl better none with
  | none =>
    obtain rfl := (foldl_better_eq_none_iff.1 hb).2
    rfl
  | some b => exact (firstBest_of_foldl_better hs hb).find?_eq.symm

theorem find?_eraseDups {α : Type} [DecidableEq α] (p : α → Bool) (xs : List α) :
    xs.eraseDups.find? p = xs.find? p := by
  induction xs using List.reverseRecOn with
  | nil => rfl
  | append_singleton xs x ih =>
    rw [eraseDups_append_singleton, List.find?_append]
    split
    · rename_i hx
      cases hf : xs.find? p with
      | some y => simp [ih, hf]
      | none => simp [ih, hf, List.find?_eq_none.1 hf x hx]
    · rw [List.find?_append, ih]

theorem pick_eq_find? {weight : Float} {F : Formula}
    (hs : Comparable ((varSequence F).map (scoreOf weight F))) :
    pick weight F = (varSequence F).find? fun v =>
      ∀ w ∈ varSequence F, scoreOf weight F w ≤ scoreOf weight F v := by
  have hc : Comparable ((Scores.ofFormula weight F).toList.map Prod.snd) := by
    refine hs.subset fun x hx => ?_
    simpa [toList_ofFormula] using hx
  rw [pick, foldl_better_eq_find? hc, toList_ofFormula, List.find?_map, Option.map_map]
  simp [Function.comp_def, find?_eraseDups]

/-- Whatever the weight is, there is a variable to branch on unless every clause is empty, and it is
one of the formula. Where the scores can be compared, and so where none of them is NaN, it is the
first variable of the formula whose score is the highest. -/
theorem pick_first_best (weight : Float) (F : Formula) :
    (pick weight F = none ↔ ∀ c ∈ F, c = []) ∧
    (∀ v, pick weight F = some v → Occurs v F) ∧
    (Comparable ((varSequence F).map (scoreOf weight F)) →
      pick weight F = (varSequence F).find? fun v =>
        ∀ w ∈ varSequence F, scoreOf weight F w ≤ scoreOf weight F v) ∧
    ((∀ v ∈ varSequence F, (scoreOf weight F v).isNaN = false) →
      Comparable ((varSequence F).map (scoreOf weight F))) := by
  refine ⟨pick_eq_none_iff, fun v => occurs_of_pick, pick_eq_find?, fun h => ?_⟩
  exact comparable_of_not_isNaN (by simpa using h)

/-- The first variable scores least, and the two others score the same. -/
theorem pick_first_best_tied :
    let F : Formula := [[4, 3, 1], [3, 1], [-1, -3]].map (List.filterMap Lit.ofDimacs?)
    let v : Var := ⟨3, by decide, by decide⟩
    (∀ w ∈ varSequence F, (scoreOf 2.0 F w).isNaN = false) ∧
    Comparable ((varSequence F).map (scoreOf 2.0 F)) ∧ pick 2.0 F = some v ∧ Occurs v F := by
  intro F v
  have hn : ∀ w ∈ varSequence F, (scoreOf 2.0 F w).isNaN = false := by
    simp only [scoreOf_eq_foldl]
    decide +kernel
  obtain ⟨-, hoccurs, hfirst, hcomparable⟩ := pick_first_best 2.0 F
  have hpick : pick 2.0 F = some v := by
    rw [hfirst (hcomparable hn)]
    simp only [scoreOf_eq_foldl]
    decide +kernel
  exact ⟨hn, hcomparable hn, hpick, hoccurs v hpick⟩

end Branching
end DpllSat
