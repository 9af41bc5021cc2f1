import DpllSat.Proofs.Dimacs.RoundTrip
import DpllSat.Proofs.Instance.Draws
import DpllSat.Proofs.ModelCheck
import DpllSat.Proofs.Random
import DpllSat.Proofs.Verdict

/-! Planted instances. Whatever is drawn, the hidden model meets every clause, so the instance is
satisfiable; written out and read back it is still the same, and the solver finds a model. -/
namespace DpllSat

namespace Shape

theorem of_eq_ok {vars width : Nat} (h1 : 0 < width) (h2 : width ≤ vars)
    (h3 : vars ≤ maxVariable) : of vars width = .ok ⟨vars, width, h1, h2, h3⟩ := by
  simp [of, Nat.ne_of_gt h1, Nat.not_lt.2 h2, Nat.not_lt.2 h3]

theorem var_injective (sh : Shape) : Function.Injective sh.var := by
  intro i j h
  have hi : i.val + 1 = j.val + 1 := congrArg Var.index h
  exact Fin.ext (Nat.succ.inj hi)

end Shape

namespace Instance

open DpllSat.Random (Source)

/-- A model with a literal for each variable of the shape, in order. -/
def Total (sh : Shape) (model : List Lit) : Prop :=
  model.map Lit.var = (List.finRange sh.vars).map sh.var

namespace Total

variable {sh : Shape} {model : List Lit} {l : Lit} {i : Fin sh.vars}

theorem nodup_var (h : Total sh model) : (model.map Lit.var).Nodup := by
  rw [h]
  exact (List.nodup_finRange _).map sh.var_injective

theorem map_index (h : Total sh model) :
    model.map (fun l => l.var.index) = (List.range sh.vars).map (· + 1) := by
  have hm : (model.map Lit.var).map Var.index = _ := congrArg (List.map Var.index) h
  rw [List.map_map, List.map_map] at hm
  rw [← List.map_coe_finRange_eq_range, List.map_map]
  exact hm

theorem mem_or_neg_mem (h : Total sh model) (hl : l.var = sh.var i) :
    l ∈ model ∨ l.neg ∈ model := by
  have hv : l.var ∈ model.map Lit.var := by
    rw [h, hl]
    exact List.mem_map_of_mem (List.mem_finRange i)
  obtain ⟨k, hk, hkl⟩ := List.mem_map.1 hv
  rcases Lit.var_eq_iff.1 hkl with rfl | rfl
  · exact Or.inl hk
  · exact Or.inr hk

theorem holds_of_mem (h : Total sh model) (hl : l ∈ model) :
    (Valuation.ofLits model).holds l = true := by
  simp [Valuation.holds, Valuation.getElem?_ofLits_of_mem h.nodup_var hl]

theorem mem_of_holds (h : Total sh model) (hl : l.var = sh.var i)
    (ht : (Valuation.ofLits model).holds l = true) : l ∈ model := by
  rcases h.mem_or_neg_mem hl with hm | hm
  · exact hm
  · have hn := Valuation.getElem?_ofLits_of_mem h.nodup_var hm
    rw [Lit.neg_var] at hn
    simp [Valuation.holds, hn, Lit.neg] at ht

end Total

variable {σ : Type} {src : Source σ} {sh : Shape}

theorem exists_var_of_mem_drawClause (hsrc : src.Lawful sh.vars sh.width) {s : σ} {l : Lit}
    (hl : l ∈ (drawClause src sh s).1) : ∃ i, l.var = sh.var i := by
  obtain ⟨picked, -, -, hp⟩ := exists_map_var_drawClause hsrc s
  have hv : l.var ∈ picked.map sh.var := hp ▸ List.mem_map_of_mem hl
  obtain ⟨i, -, hi⟩ := List.mem_map.1 hv
  exact ⟨i, hi.symm⟩

theorem length_drawClause (hsrc : src.Lawful sh.vars sh.width) (s : σ) :
    (drawClause src sh s).1.length = sh.width := by
  obtain ⟨picked, hlen, -, hp⟩ := exists_map_var_drawClause hsrc s
  have := congrArg List.length hp
  simpa [hlen] using this

theorem neg_mem_modify {d : Clause} {i : Nat} (hi : i < d.length) :
    d[i].neg ∈ d.modify i Lit.neg := by
  have hi' : i < (d.modify i Lit.neg).length := by rwa [List.length_modify]
  have hm := List.getElem_mem hi'
  rwa [List.getElem_modify_eq] at hm

/-- A clause that the model does not meet has only literals whose opposites are in it, so it is
enough to negate any one of them. -/
theorem exists_mem_drawPlanted (hsrc : src.Lawful sh.vars sh.width) {model : List Lit}
    (h : Total sh model) (s : σ) :
    ∃ l ∈ (drawPlanted src sh (.ofLits model) s).1, l ∈ model := by
  unfold drawPlanted
  by_cases hany : (drawClause src sh s).1.any (Valuation.ofLits model).holds = true
  · obtain ⟨l, hl, ht⟩ := List.any_eq_true.1 hany
    obtain ⟨i, hi⟩ := exists_var_of_mem_drawClause hsrc hl
    simp only [hany, ite_true]
    exact ⟨l, hl, h.mem_of_holds hi ht⟩
  · have hlt (n : Fin sh.width) : n.val < (drawClause src sh s).1.length := by
      rw [length_drawClause hsrc]
      exact n.isLt
    simp only [hany]
    refine ⟨_, neg_mem_modify (hlt _), ?_⟩
    have hl := List.getElem_mem (hlt (src.below sh.width_pos (drawClause src sh s).2).1)
    obtain ⟨i, hi⟩ := exists_var_of_mem_drawClause hsrc hl
    refine (h.mem_or_neg_mem hi).resolve_left fun hm => hany ?_
    exact List.any_eq_true.2 ⟨_, hl, h.holds_of_mem hm⟩

theorem planted_spec (hsrc : src.Lawful sh.vars sh.width) (clauses : Nat) (seed : UInt64) :
    Total sh (planted src sh clauses seed).2 ∧
      (planted src sh clauses seed).1.numVars = sh.vars ∧
      (planted src sh clauses seed).1.clauses.length = clauses ∧
      ∀ c ∈ (planted src sh clauses seed).1.clauses,
        ∃ l ∈ c, l ∈ (planted src sh clauses seed).2 := by
  have ht : Total sh (planted src sh clauses seed).2 := map_var_drawEach _ _
  refine ⟨ht, rfl, ?_, forall_mem_drawEach (fun _ s => exists_mem_drawPlanted hsrc ht s) _ _⟩
  simp [planted]

end Instance

open Instance Dimacs Solver
open DpllSat.Random (Source chacha chacha_lawful_of_lt)

/-- A planted instance is solved from end to end, whatever source it is drawn from: it is enough
that a sample has the size that was asked for and no index twice. The hidden model names the
variables in order and has a literal in every clause, so that the check of a model passes it. What
is written for the instance is read back as the same formula, and on that the solver finds a model
with any weight. The number of clauses has to fit a 64-bit word, as it does where it comes from. -/
theorem planted_instance_solved {σ : Type} (src : Source σ) (vars clauses width : Nat)
    (seed : UInt64) (hsrc : src.Lawful vars width) (hwidth : 1 ≤ width) (hle : width ≤ vars)
    (hvars : vars ≤ maxVariable) (hclauses : clauses ≤ Text.maxUnsigned64) :
    ∃ sh f hidden, Shape.of vars width = .ok sh ∧ planted src sh clauses seed = (f, hidden) ∧
      (∀ c ∈ f.clauses, ∃ l ∈ c, l ∈ hidden) ∧
      hidden.map (fun l => l.var.index) = (List.range vars).map (· + 1) ∧
      f.firstUnsatisfied hidden = none ∧
      ∃ r, readText f.toDimacs = .ok r ∧ r.cnf = f ∧
        ∀ weight, ∃ model, (r.cnf.solve weight).result = .sat model := by
  let sh : Shape := ⟨vars, width, hwidth, hle, hvars⟩
  have hsh : src.Lawful sh.vars sh.width := hsrc
  obtain ⟨ht, hnum, hlen, hmeet⟩ := planted_spec hsh clauses seed
  have hread : readText (planted src sh clauses seed).1.toDimacs = .ok _ :=
    readText_toDimacs_of_le (by rw [hnum]; exact hvars) (by rw [hlen]; exact hclauses)
  refine ⟨sh, _, _, Shape.of_eq_ok hwidth hle hvars, rfl, hmeet, ht.map_index,
    Cnf.firstUnsatisfied_of_mem ht.nodup_var hmeet, _, hread, rfl, fun weight => ?_⟩
  exact exists_model_of_satisfiable weight (satisfiable_of_lits ht.nodup_var hmeet)

theorem planted_instance_solved_triples :
    chacha.Lawful 5 3 ∧ 1 ≤ 3 ∧ 3 ≤ 5 ∧ 5 ≤ maxVariable ∧ 40 ≤ Text.maxUnsigned64 ∧
    ∃ sh f hidden, Shape.of 5 3 = .ok sh ∧ planted chacha sh 40 7 = (f, hidden) ∧
      (∀ c ∈ f.clauses, ∃ l ∈ c, l ∈ hidden) ∧
      hidden.map (fun l => l.var.index) = [1, 2, 3, 4, 5] ∧
      f.firstUnsatisfied hidden = none ∧
      ∃ r, readText f.toDimacs = .ok r ∧ r.cnf = f ∧
        ∀ weight, ∃ model, (r.cnf.solve weight).result = .sat model :=
  have hsrc : chacha.Lawful 5 3 := chacha_lawful_of_lt (by decide)
  ⟨hsrc, by decide, by decide, by decide, by decide,
    planted_instance_solved chacha 5 40 3 7 hsrc (by decide) (by decide) (by decide) (by decide)⟩

end DpllSat
