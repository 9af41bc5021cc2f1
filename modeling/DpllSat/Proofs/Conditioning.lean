import DpllSat.Proofs.Reduction

/-! Assuming literals conditions a formula on them: the clauses that hold are dropped and the false
literals are struck from the others, unless that would empty a clause. One literal after the other
does so, and to literals of different variables the order makes no difference. -/
namespace DpllSat
namespace Propagation

def assumeAll (T : List Lit) (F : Formula) : Option Formula := T.foldlM (fun F l => assume l F) F

/-- A clause that is not empty, but has only literals that `T` makes false. -/
def FalsifiedBy (T : List Lit) (c : Clause) : Prop := c ≠ [] ∧ ∀ k ∈ c, k.neg ∈ T

theorem assumeAll_cons (l : Lit) (T : List Lit) (F : Formula) :
    assumeAll (l :: T) F = (assume l F).bind (assumeAll T) := rfl

theorem falsifiedBy_cons_iff {l : Lit} {T : List Lit} (hl : l.neg ∉ T) (c : Clause) :
    FalsifiedBy (l :: T) c ↔ Refuted l c ∨ l ∉ c ∧ FalsifiedBy T (reduceClause [l] c) := by
  constructor
  · rintro ⟨hne, hc⟩
    by_cases he : reduceClause [l] c = []
    · exact Or.inl (refuted_iff.2 ⟨hne, he⟩)
    · have hlc : l ∉ c := by
        intro h
        rcases List.mem_cons.1 (hc l h) with e | e
        · exact Lit.neg_ne l e
        · exact hl e
      refine Or.inr ⟨hlc, he, fun k hk => ?_⟩
      obtain ⟨hk, hn⟩ := mem_reduceClause.1 hk
      rcases List.mem_cons.1 (hc k hk) with e | e
      · exact absurd (List.mem_singleton.2 e) hn
      · exact e
  · rintro (⟨hne, hc⟩ | ⟨-, hne, hc⟩)
    · exact ⟨hne, fun k hk => by simp [hc k hk]⟩
    · refine ⟨fun e => hne (by simp [e, reduceClause]), fun k hk => ?_⟩
      by_cases hkl : k.neg = l
      · exact hkl ▸ List.mem_cons_self
      · exact List.mem_cons_of_mem l (hc k (mem_reduceClause.2 ⟨hk, by simpa using hkl⟩))

theorem assumeAll_eq_some_iff {T : List Lit} (hT : (T.map Lit.var).Nodup) {F G : Formula} :
    assumeAll T F = some G ↔ reduce T F = G ∧ ∀ c ∈ F, ¬ FalsifiedBy T c := by
  induction T generalizing F with
  | nil =>
    have hn (c : Clause) : ¬ FalsifiedBy [] c := by
      rintro ⟨hne, hc⟩
      obtain ⟨k, hk⟩ := List.exists_mem_of_ne_nil c hne
      exact absurd (hc k hk) (List.not_mem_nil)
    simp [assumeAll, hn]
  | cons l T ih =>
    obtain ⟨hl, hT⟩ := List.nodup_cons.1 hT
    have hneg : ∀ k ∈ T, k.neg ∉ [l] := by
      intro k hk
      rw [List.mem_singleton]
      exact Lit.neg_ne_of_var_ne fun hv => hl (List.mem_map.2 ⟨k, hk, hv⟩)
    have hlneg : l.neg ∉ T := fun h => hl (List.mem_map.2 ⟨l.neg, h, rfl⟩)
    have hred : reduce (l :: T) F = reduce T (reduce [l] F) := reduce_append hneg F
    simp only [assumeAll_cons, Option.bind_eq_some_iff, assume_eq_some_iff, ih hT, hred,
      falsifiedBy_cons_iff hlneg, not_or, not_and]
    constructor
    · rintro ⟨H, ⟨rfl, hF⟩, hG, hH⟩
      refine ⟨hG, fun c hc => ⟨hF c hc, fun hlc => hH _ (mem_reduce.2 ⟨c, hc, ?_, rfl⟩)⟩⟩
      simpa using hlc
    · rintro ⟨hG, hF⟩
      refine ⟨_, ⟨rfl, fun c hc => (hF c hc).1⟩, hG, fun d hd => ?_⟩
      obtain ⟨c, hc, hlc, rfl⟩ := mem_reduce.1 hd
      exact (hF c hc).2 (by simpa using hlc)

theorem assumeAll_eq_none_iff {T : List Lit} (hT : (T.map Lit.var).Nodup) {F : Formula} :
    assumeAll T F = none ↔ ∃ c ∈ F, FalsifiedBy T c := by
  have hs : assumeAll T F ≠ none ↔ ∀ c ∈ F, ¬ FalsifiedBy T c := by
    simp [Option.ne_none_iff_exists', assumeAll_eq_some_iff hT]
  rw [← not_iff_not, ← ne_eq, hs]
  push Not
  rfl

theorem reduce_congr {T U : List Lit} (h : ∀ l, l ∈ T ↔ l ∈ U) (F : Formula) :
    reduce T F = reduce U F := by
  have hc : reduceClause T = reduceClause U := by
    funext c
    simp [reduceClause, h]
  simp [reduce, hc, h]

theorem assumeAll_perm {T U : List Lit} (h : T.Perm U) (hT : (T.map Lit.var).Nodup)
    (F : Formula) : assumeAll T F = assumeAll U F := by
  have hU : (U.map Lit.var).Nodup := (h.map Lit.var).nodup_iff.1 hT
  ext G
  rw [assumeAll_eq_some_iff hT, assumeAll_eq_some_iff hU, reduce_congr fun l => h.mem_iff]
  simp only [FalsifiedBy, h.mem_iff]

theorem assume_comm {k l : Lit} (h : k.var ≠ l.var) (F : Formula) :
    (assume k F).bind (assume l) = (assume l F).bind (assume k) := by
  have hp := assumeAll_perm (List.Perm.swap l k []) (by simpa using h) F
  simpa [assumeAll] using hp

/-- To assume a literal is to condition the formula on it: there is a contradiction just where a
clause that is not empty has no literal but the opposite one, and otherwise the clauses without the
literal remain, in order, without the opposite literal. The variable is gone then, and the models
that make the literal true are the same as before. -/
theorem assume_conditions (l : Lit) (F : Formula) :
    (assume l F = none ↔ ∃ c ∈ F, c ≠ [] ∧ ∀ k ∈ c, k = l.neg) ∧
    (∀ G, assume l F = some G →
      G = (F.filter fun c => l ∉ c).map (fun c => c.filter (· != l.neg)) ∧
      ¬ Occurs l.var G) ∧
    ∀ a : Assignment, a.Holds l →
      (a.Satisfies F ↔ ∃ G, assume l F = some G ∧ a.Satisfies G) := by
  refine ⟨assume_eq_none_iff, fun G hG => ?_, fun a ha => ?_⟩
  · obtain rfl := reduce_of_assume hG
    refine ⟨reduce_singleton l F, fun ho => ?_⟩
    exact (occurs_of_reduce ho).2 l List.mem_cons_self rfl
  · constructor
    · intro hF
      cases hG : assume l F with
      | none => exact absurd hF (not_satisfies_of_assume hG ha)
      | some G => exact ⟨G, rfl, (satisfies_of_assume hG ha).2 hF⟩
    · rintro ⟨G, hG, hs⟩
      exact (satisfies_of_assume hG ha).1 hs

def formulaOf (cs : List (List Int)) : Formula := cs.map (List.filterMap Lit.ofDimacs?)

theorem assume_conditions_tangled :
    let l : Lit := ⟨⟨1, by decide, by decide⟩, true⟩
    let a : Assignment := fun _ => true
    (assume l (formulaOf [[1, 2], [-1, 3, -1], [], [2, -2], [-1, 1]]) =
        some (formulaOf [[3], [], [2, -2]]) ∧ ¬ Occurs l.var (formulaOf [[3], [], [2, -2]])) ∧
    (a.Holds l ∧ a.Satisfies (formulaOf [[1, 2], [-1, 3, -1]]) ∧
      ∃ G, assume l (formulaOf [[1, 2], [-1, 3, -1]]) = some G ∧ a.Satisfies G) ∧
    assume l (formulaOf [[1, 2], [-1, -1], []]) = none := by
  intro l a
  have hsome : assume l (formulaOf [[1, 2], [-1, 3, -1], [], [2, -2], [-1, 1]]) =
      some (formulaOf [[3], [], [2, -2]]) := by decide
  have hl : a.Holds l := by decide
  have hsat : a.Satisfies (formulaOf [[1, 2], [-1, 3, -1]]) := by decide
  refine ⟨⟨hsome, ((assume_conditions l _).2.1 _ hsome).2⟩,
    ⟨hl, hsat, ((assume_conditions l _).2.2 a hl).1 hsat⟩, (assume_conditions l _).1.2 ?_⟩
  exact ⟨[l.neg, l.neg], by decide, by decide, by decide⟩

/-- To assume literals of different variables in turn is to condition the formula on all of them
together: there is a contradiction just where a clause that is not empty has only literals that the
list makes false, and otherwise the clauses without a literal of the list remain, in order, without
the false literals. So every order comes to the same. -/
theorem assumeAll_conditions {T : List Lit} (hT : (T.map Lit.var).Nodup) (F : Formula) :
    (assumeAll T F = none ↔ ∃ c ∈ F, c ≠ [] ∧ ∀ k ∈ c, k.neg ∈ T) ∧
    (∀ G, assumeAll T F = some G →
      G = (F.filter fun c => ∀ l ∈ T, l ∉ c).map (fun c => c.filter (·.neg ∉ T))) ∧
    ∀ U, U.Perm T → assumeAll U F = assumeAll T F := by
  refine ⟨assumeAll_eq_none_iff hT, fun G hG => ?_, fun U hU => ?_⟩
  · exact ((assumeAll_eq_some_iff hT).1 hG).1.symm
  · exact (assumeAll_perm hU.symm hT F).symm

/-- The clause of `-1` and `2` is shortened by the first literal of one order and dropped by the
first of the other. The clauses that are falsified meet their contradiction at different literals. -/
theorem assumeAll_conditions_reordered :
    let T := [1, 2, -3].filterMap Lit.ofDimacs?
    let U := [2, -3, 1].filterMap Lit.ofDimacs?
    (T.map Lit.var).Nodup ∧ U.Perm T ∧
    assumeAll T (formulaOf [[-1, 2], [-1, 4, 3, -1], [], [4, -4]]) =
      some (formulaOf [[4], [], [4, -4]]) ∧
    assumeAll U (formulaOf [[-1, 2], [-1, 4, 3, -1], [], [4, -4]]) =
      some (formulaOf [[4], [], [4, -4]]) ∧
    assumeAll T (formulaOf [[-2, 3, -2], [-1]]) = none ∧
    assumeAll U (formulaOf [[-2, 3, -2], [-1]]) = none := by
  intro T U
  have hT : (T.map Lit.var).Nodup := by decide
  have hU : U.Perm T := by decide
  have hsome : assumeAll T (formulaOf [[-1, 2], [-1, 4, 3, -1], [], [4, -4]]) =
      some (formulaOf [[4], [], [4, -4]]) := by decide
  have hnone : assumeAll T (formulaOf [[-2, 3, -2], [-1]]) = none := by
    refine (assumeAll_conditions hT _).1.2 ⟨_, List.mem_cons_self, ?_⟩
    decide
  exact ⟨hT, hU, hsome, ((assumeAll_conditions hT _).2.2 U hU).trans hsome, hnone,
    ((assumeAll_conditions hT _).2.2 U hU).trans hnone⟩

end Propagation
end DpllSat
