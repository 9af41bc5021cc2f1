import DpllSat.Proofs.Completion
import Mathlib.Data.Set.Basic
import Mathlib.Order.Bounds.Defs

/-! The check of a model against a formula, for any list of literals as the model: it finds the
first clause in which no literal is the last one of its variable in the list. -/
namespace DpllSat

/-- `l` stands in `model`, and no literal of its variable stands after it. -/
def LastOfVar (model : List Lit) (l : Lit) : Prop :=
  ∃ before after, model = before ++ l :: after ∧ ∀ k ∈ after, k.var ≠ l.var

namespace LastOfVar

variable {model : List Lit} {k l : Lit}

theorem mem (h : LastOfVar model l) : l ∈ model := by
  obtain ⟨before, after, rfl, -⟩ := h
  simp

theorem not_nil : ¬ LastOfVar [] l := fun h => List.not_mem_nil h.mem

theorem append_singleton_iff :
    LastOfVar (model ++ [k]) l ↔ if k.var = l.var then k = l else LastOfVar model l := by
  constructor
  · rintro ⟨before, after, he, ha⟩
    -- either `l` is itself at the end, or what stands after it ends in `k`
    rcases List.eq_nil_or_concat after with rfl | ⟨rest, j, rfl⟩
    · obtain ⟨-, rfl⟩ : model = before ∧ k = l := by simpa using List.append_inj' he rfl
      simp
    · rw [List.concat_eq_append] at he ha
      obtain ⟨rfl, rfl⟩ : model = before ++ l :: rest ∧ k = j := by
        simpa using List.append_inj' (he.trans (List.append_assoc before (l :: rest) [j]).symm) rfl
      have hk : k.var ≠ l.var := ha k (by simp)
      rw [if_neg hk]
      exact ⟨before, rest, rfl, fun j hj => ha j (by simp [hj])⟩
  · split
    · rintro rfl
      exact ⟨model, [], rfl, by simp⟩
    · rintro ⟨before, after, rfl, ha⟩
      refine ⟨before, after ++ [k], by simp, fun j hj => ?_⟩
      rcases List.mem_append.1 hj with hj | hj
      · exact ha j hj
      · rwa [List.mem_singleton.1 hj]

theorem exists_of_mem (h : k ∈ model) : ∃ l, LastOfVar model l ∧ l.var = k.var := by
  induction model using List.reverseRecOn with
  | nil => cases h
  | append_singleton model j ih =>
    by_cases hv : j.var = k.var
    · exact ⟨j, append_singleton_iff.2 (by simp), hv⟩
    · have hk : k ∈ model := by
        rcases List.mem_append.1 h with hk | hk
        · exact hk
        · exact absurd (congrArg Lit.var (List.mem_singleton.1 hk)).symm hv
      obtain ⟨l, hl, he⟩ := ih hk
      have hjl : j.var ≠ l.var := fun e => hv (e.trans he)
      exact ⟨l, append_singleton_iff.2 (by rwa [if_neg hjl]), he⟩

theorem iff_mem (h : ∀ j ∈ model, j.neg ∉ model) : LastOfVar model l ↔ l ∈ model := by
  refine ⟨mem, fun hl => ?_⟩
  obtain ⟨k, hk, hv⟩ := exists_of_mem hl
  rcases Lit.var_eq_iff.1 hv with rfl | rfl
  · exact hk
  · exact absurd hk.mem (h l hl)

end LastOfVar

/-- What a table holds in the end is what the last literal of each variable says. -/
theorem TruthTable.holds_ofLits_iff {size : Nat} {model : List Lit} {l : Lit}
    (h : l.var.index < size) : (ofLits size model).holds l = true ↔ LastOfVar model l := by
  induction model using List.reverseRecOn with
  | nil =>
    have hb : (ofLits size []).holds l = false := holds_blank size l
    simp [hb, LastOfVar.not_nil]
  | append_singleton model k ih =>
    have hw : ofLits size (model ++ [k]) = (ofLits size model).write k := by simp [ofLits]
    rw [hw, holds_write (by simpa using h), LastOfVar.append_singleton_iff, ← ih]
    split <;> simp

theorem findIdx?_eq_some_iff_isLeast {α : Type} {p : α → Bool} {xs : List α} {i : Nat} :
    xs.findIdx? p = some i ↔ IsLeast {j | ∃ x, xs[j]? = some x ∧ p x = true} i := by
  rw [List.findIdx?_eq_some_iff_getElem]
  constructor
  · rintro ⟨hi, hp, hlt⟩
    refine ⟨⟨xs[i], List.getElem?_eq_getElem hi, hp⟩, ?_⟩
    rintro j ⟨x, hx, hpx⟩
    by_contra hj
    obtain ⟨hjl, rfl⟩ := List.getElem?_eq_some_iff.1 hx
    exact hlt j (Nat.lt_of_not_le hj) hpx
  · rintro ⟨⟨x, hx, hp⟩, hleast⟩
    obtain ⟨hi, rfl⟩ := List.getElem?_eq_some_iff.1 hx
    refine ⟨hi, hp, fun j hj hpj => ?_⟩
    have hjl : j < xs.length := Nat.lt_trans hj hi
    exact Nat.not_le_of_lt hj (hleast ⟨xs[j], List.getElem?_eq_getElem hjl, hpj⟩)

namespace Cnf

variable {f : Cnf} {model : List Lit}

/-- The indices of the clauses that have no literal with the property `P`. -/
def unmet (f : Cnf) (P : Lit → Prop) : Set Nat :=
  {i | ∃ c, f.clauses[i]? = some c ∧ ∀ l ∈ c, ¬ P l}

theorem unmet_congr {P Q : Lit → Prop} (h : ∀ l, P l ↔ Q l) : f.unmet P = f.unmet Q := by
  simp [unmet, h]

theorem unmet_eq_empty_iff {P : Lit → Prop} :
    f.unmet P = ∅ ↔ ∀ c ∈ f.clauses, ∃ l ∈ c, P l := by
  rw [Set.eq_empty_iff_forall_notMem]
  constructor
  · intro h c hc
    obtain ⟨i, hi⟩ := List.mem_iff_getElem?.1 hc
    by_contra hn
    exact h i ⟨c, hi, fun l hl hp => hn ⟨l, hl, hp⟩⟩
  · rintro h i ⟨c, hi, hn⟩
    obtain ⟨l, hl, hp⟩ := h c (List.mem_of_getElem? hi)
    exact hn l hl hp

theorem index_lt_size {c : Clause} {l : Lit} (hc : c ∈ f.clauses) (hl : l ∈ c) :
    l.var.index < (f.truthTable model).size := by
  have h := index_le_maxVar ⟨c, hc, l, hl, rfl⟩
  simpa [truthTable] using Nat.lt_succ_of_le h

theorem any_holds_iff {c : Clause} (hc : c ∈ f.clauses) :
    c.any (f.truthTable model).holds = true ↔ ∃ l ∈ c, LastOfVar model l := by
  rw [List.any_eq_true]
  refine exists_congr fun l => and_congr_right fun hl => ?_
  have hi : l.var.index < (f.truthTable model).size := index_lt_size hc hl
  rw [truthTable, TruthTable.size_ofLits] at hi
  exact TruthTable.holds_ofLits_iff hi

theorem firstUnsatisfied_eq_some_iff {i : Nat} :
    f.firstUnsatisfied model = some i ↔ IsLeast (f.unmet (LastOfVar model)) i := by
  have hs : {j | ∃ c, f.clauses[j]? = some c ∧ (!c.any (f.truthTable model).holds) = true} =
      f.unmet (LastOfVar model) := by
    ext j
    refine exists_congr fun c => and_congr_right fun hc => ?_
    rw [Bool.not_eq_true', ← Bool.not_eq_true, any_holds_iff (List.mem_of_getElem? hc)]
    simp
  rw [firstUnsatisfied, findIdx?_eq_some_iff_isLeast, hs]

theorem firstUnsatisfied_eq_none_iff :
    f.firstUnsatisfied model = none ↔ f.unmet (LastOfVar model) = ∅ := by
  rw [firstUnsatisfied, List.findIdx?_eq_none_iff, unmet_eq_empty_iff]
  refine forall₂_congr fun c hc => ?_
  rw [Bool.not_eq_false', any_holds_iff hc]

theorem firstUnsatisfied_of_mem (hm : (model.map Lit.var).Nodup)
    (h : ∀ c ∈ f.clauses, ∃ l ∈ c, l ∈ model) : f.firstUnsatisfied model = none := by
  have hn : ∀ l ∈ model, l.neg ∉ model := fun l hl hk =>
    Lit.neg_ne l (List.inj_on_of_nodup_map hm hk hl rfl)
  rw [firstUnsatisfied_eq_none_iff, unmet_congr fun l => LastOfVar.iff_mem hn]
  exact unmet_eq_empty_iff.2 h

/-- For any list of literals as the model, the check finds the first clause in which no literal is
the last one of its variable in the model, and the table has a cell for every literal it looks up.
In a model without opposite literals, that is the first clause that has no literal of the model. -/
theorem firstUnsatisfied_isLeast (f : Cnf) (model : List Lit) :
    (∀ i, f.firstUnsatisfied model = some i ↔ IsLeast (f.unmet (LastOfVar model)) i) ∧
    (f.firstUnsatisfied model = none ↔ f.unmet (LastOfVar model) = ∅) ∧
    (∀ c ∈ f.clauses, ∀ l ∈ c, ((f.truthTable model).cell? l.var.index).isSome) ∧
    ((∀ l ∈ model, l.neg ∉ model) →
      (∀ i, f.firstUnsatisfied model = some i ↔ IsLeast (f.unmet (· ∈ model)) i) ∧
      (f.firstUnsatisfied model = none ↔ f.unmet (· ∈ model) = ∅)) := by
  refine ⟨fun i => firstUnsatisfied_eq_some_iff, firstUnsatisfied_eq_none_iff, ?_, fun h => ?_⟩
  · intro c hc l hl
    exact TruthTable.isSome_cell?_iff.2 (index_lt_size hc hl)
  · have he : f.unmet (LastOfVar model) = f.unmet (· ∈ model) :=
      unmet_congr fun l => LastOfVar.iff_mem h
    rw [← he]
    exact ⟨fun i => firstUnsatisfied_eq_some_iff, firstUnsatisfied_eq_none_iff⟩

/-- A model out of order that repeats a literal and names a variable that the formula lacks. -/
theorem firstUnsatisfied_isLeast_disordered :
    let f : Cnf := ⟨1, [[1, 2], [-1, 3], [-2, -3], []].map (List.filterMap Lit.ofDimacs?)⟩
    let model := [2, 7, 3, 1, 3].filterMap Lit.ofDimacs?
    let c := [-2, -3].filterMap Lit.ofDimacs?
    ((∀ l ∈ model, l.neg ∉ model) ∧ f.firstUnsatisfied model = some 2) ∧
    c ∈ f.clauses ∧ ∀ l ∈ c, ((f.truthTable model).cell? l.var.index).isSome := by
  intro f model c
  have hn : ∀ l ∈ model, l.neg ∉ model := by decide
  have hc : c ∈ f.clauses := by decide
  obtain ⟨-, -, hcell, hclash⟩ := firstUnsatisfied_isLeast f model
  refine ⟨⟨hn, ((hclash hn).1 2).2 ⟨⟨c, rfl, by decide⟩, ?_⟩⟩, hc, hcell c hc⟩
  rintro (_ | _ | j) ⟨d, hd, hl⟩
  · cases hd
    exact absurd hl (by decide)
  · cases hd
    exact absurd hl (by decide)
  · exact Nat.le_add_left 2 j

end Cnf
end DpllSat
