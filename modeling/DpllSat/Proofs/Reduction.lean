import DpllSat.Propagation
import DpllSat.Proofs.Assignment

/-! Reduction of a formula by a list of literals taken together, without regard to their
order, and the assumption of one literal after the other as such a reduction. -/
namespace DpllSat
namespace Propagation

def reduceClause (T : List Lit) (c : Clause) : Clause := c.filter fun k => k.neg ∉ T

/-- The clauses that contain no literal of `T`, each without the negations of those. -/
def reduce (T : List Lit) (F : Formula) : Formula :=
  (F.filter fun c => ∀ l ∈ T, l ∉ c).map (reduceClause T)

theorem mem_reduceClause {T : List Lit} {c : Clause} {k : Lit} :
    k ∈ reduceClause T c ↔ k ∈ c ∧ k.neg ∉ T := by
  simp [reduceClause]

theorem mem_reduce {T : List Lit} {F : Formula} {d : Clause} :
    d ∈ reduce T F ↔ ∃ c ∈ F, (∀ l ∈ T, l ∉ c) ∧ reduceClause T c = d := by
  simp [reduce, and_assoc]

@[simp] theorem reduce_nil (F : Formula) : reduce [] F = F := by
  have hc : reduceClause [] = id := by
    funext c
    simp [reduceClause]
  simp [reduce, hc]

theorem reduceClause_append (T U : List Lit) (c : Clause) :
    reduceClause (T ++ U) c = reduceClause U (reduceClause T c) := by
  simp [reduceClause, List.filter_filter, Bool.and_comm]

/-- Reduction in two steps. A literal of the second list that the first list makes false
would be gone before it could satisfy a clause. -/
theorem reduce_append {T U : List Lit} (h : ∀ l ∈ U, l.neg ∉ T) (F : Formula) :
    reduce (T ++ U) F = reduce U (reduce T F) := by
  have hc : reduceClause (T ++ U) = reduceClause U ∘ reduceClause T :=
    funext fun c => reduceClause_append T U c
  have hm (l : Lit) (hl : l ∈ U) (c : Clause) : l ∈ reduceClause T c ↔ l ∈ c := by
    rw [mem_reduceClause]
    exact and_iff_left (h l hl)
  simp only [reduce, hc, List.filter_map, List.map_map, List.filter_filter]
  congr 1
  apply List.filter_congr
  intro c _
  simp only [Function.comp_apply, List.mem_append, ← Bool.decide_and, decide_eq_decide]
  constructor
  · intro hn
    exact ⟨fun l hl => mt (hm l hl c).1 (hn l (Or.inr hl)), fun l hl => hn l (Or.inl hl)⟩
  · rintro ⟨hU, hT⟩ l (hl | hl)
    · exact hT l hl
    · exact mt (hm l hl c).2 (hU l hl)

theorem occurs_of_reduce {T : List Lit} {F : Formula} {v : Var} (h : Occurs v (reduce T F)) :
    Occurs v F ∧ ∀ l ∈ T, l.var ≠ v := by
  obtain ⟨d, hd, k, hk, rfl⟩ := h
  obtain ⟨c, hc, hn, rfl⟩ := mem_reduce.1 hd
  obtain ⟨hk, hneg⟩ := mem_reduceClause.1 hk
  refine ⟨⟨c, hc, k, hk, rfl⟩, fun l hl hv => ?_⟩
  rcases Lit.var_eq_iff.1 hv with rfl | rfl
  · exact hn l hl hk
  · exact hneg hl

theorem satisfies_reduce {a : Assignment} {T : List Lit} (hT : ∀ l ∈ T, a.Holds l)
    (F : Formula) : a.Satisfies (reduce T F) ↔ a.Satisfies F := by
  constructor
  · intro h c hc
    by_cases ht : ∃ l ∈ T, l ∈ c
    · obtain ⟨l, hl, hlc⟩ := ht
      exact ⟨l, hlc, hT l hl⟩
    · have hd : reduceClause T c ∈ reduce T F :=
        mem_reduce.2 ⟨c, hc, fun l hl hlc => ht ⟨l, hl, hlc⟩, rfl⟩
      obtain ⟨k, hk, ha⟩ := h _ hd
      exact ⟨k, (mem_reduceClause.1 hk).1, ha⟩
  · intro h d hd
    obtain ⟨c, hc, -, rfl⟩ := mem_reduce.1 hd
    obtain ⟨k, hk, ha⟩ := h c hc
    refine ⟨k, mem_reduceClause.2 ⟨hk, fun hn => ?_⟩, ha⟩
    exact (a.holds_neg k).1 (hT _ hn) ha

theorem reduceClause_singleton (l : Lit) (c : Clause) :
    reduceClause [l] c = c.filter (· != l.neg) := by
  apply List.filter_congr
  intro k _
  simp [Lit.neg_eq_iff, bne, BEq.beq]

theorem reduce_singleton (l : Lit) (F : Formula) :
    reduce [l] F = (F.filter fun c => l ∉ c).map fun c => c.filter (· != l.neg) := by
  simp [reduce, funext (reduceClause_singleton l)]

theorem strike_eq_some_iff {l : Lit} {c d : Clause} :
    strike l c = some d ↔ c.filter (· != l) = d ∧ (d = [] → c = []) := by
  unfold strike
  split
  · rename_i hc
    have hne : c ≠ [] := by
      rintro rfl
      simp at hc
    split
    · rename_i he
      simp only [he, reduceCtorEq, false_iff]
      rintro ⟨rfl, h⟩
      exact hne (h rfl)
    · rename_i hf
      constructor
      · intro h
        cases h
        exact ⟨rfl, fun e => absurd e hf⟩
      · rintro ⟨rfl, -⟩
        rfl
  · rename_i hc
    have hf : c.filter (· != l) = c := by
      rw [List.filter_eq_self]
      rintro k hk
      have hkl : k ≠ l := by
        rintro rfl
        exact hc (by simpa using hk)
      simpa using hkl
    rw [hf]
    constructor
    · intro h
      cases h
      exact ⟨rfl, id⟩
    · rintro ⟨rfl, -⟩
      rfl

/-- A clause that is nothing but a literal that has become false. -/
def Refuted (l : Lit) (c : Clause) : Prop := c ≠ [] ∧ ∀ k ∈ c, k = l.neg

theorem refuted_iff {l : Lit} {c : Clause} :
    Refuted l c ↔ c ≠ [] ∧ reduceClause [l] c = [] := by
  simp [Refuted, reduceClause_singleton, List.filter_eq_nil_iff]

/-- To assume a literal is to reduce the formula by it, unless that leaves nothing of
some clause that was not empty before. -/
theorem assume_eq_some_iff {l : Lit} {F G : Formula} :
    assume l F = some G ↔ reduce [l] F = G ∧ ∀ c ∈ F, ¬ Refuted l c := by
  induction F generalizing G with
  | nil => simp [reduce]
  | cons c F ih =>
    rw [assume_cons]
    by_cases hl : l ∈ c
    · have hr : ¬ Refuted l c := fun h => Lit.neg_ne l (h.2 l hl).symm
      simp [hl, ih, hr, reduce]
    · have hc : reduce [l] (c :: F) = reduceClause [l] c :: reduce [l] F := by
        simp [reduce, hl]
      simp only [hl, ite_false, hc, Option.bind_eq_some_iff, Option.map_eq_some_iff, ih,
        strike_eq_some_iff, ← reduceClause_singleton, List.forall_mem_cons, refuted_iff]
      constructor
      · rintro ⟨d, ⟨rfl, hd⟩, H, ⟨rfl, hF⟩, rfl⟩
        exact ⟨rfl, fun h => h.1 (hd h.2), fun c hc => hF c hc⟩
      · rintro ⟨rfl, hn, hF⟩
        exact ⟨_, ⟨rfl, fun e => not_not.1 fun hne => hn ⟨hne, e⟩⟩, _, ⟨rfl, hF⟩, rfl⟩

theorem assume_eq_none_iff {l : Lit} {F : Formula} :
    assume l F = none ↔ ∃ c ∈ F, Refuted l c := by
  constructor
  · intro h
    by_contra hn
    have hs : assume l F = some (reduce [l] F) :=
      assume_eq_some_iff.2 ⟨rfl, fun c hc hr => hn ⟨c, hc, hr⟩⟩
    rw [h] at hs
    cases hs
  · rintro ⟨c, hc, hr⟩
    cases h : assume l F with
    | none => rfl
    | some G => exact absurd hr ((assume_eq_some_iff.1 h).2 c hc)

theorem reduce_of_assume {l : Lit} {F G : Formula} (h : assume l F = some G) :
    reduce [l] F = G := (assume_eq_some_iff.1 h).1

theorem nil_mem_of_assume {l : Lit} {F G : Formula} (h : assume l F = some G)
    (hG : [] ∈ G) : [] ∈ F := by
  obtain ⟨rfl, hF⟩ := assume_eq_some_iff.1 h
  obtain ⟨c, hc, -, he⟩ := mem_reduce.1 hG
  by_cases hn : c = []
  · exact hn ▸ hc
  · exact absurd (refuted_iff.2 ⟨hn, he⟩) (hF c hc)

theorem satisfies_of_assume {a : Assignment} {l : Lit} {F G : Formula}
    (h : assume l F = some G) (ha : a.Holds l) : a.Satisfies G ↔ a.Satisfies F := by
  rw [← reduce_of_assume h]
  exact satisfies_reduce (by simpa using ha) F

theorem not_satisfies_of_assume {a : Assignment} {l : Lit} {F : Formula}
    (h : assume l F = none) (ha : a.Holds l) : ¬ a.Satisfies F := by
  intro hF
  obtain ⟨c, hc, -, hr⟩ := assume_eq_none_iff.1 h
  obtain ⟨k, hk, hak⟩ := hF c hc
  rw [hr k hk] at hak
  exact (a.holds_neg l).1 hak ha

end Propagation
end DpllSat
