import DpllSat.Proofs.Instance.Planted

/-! The shape of random instances. Whatever is drawn, a clause has its width in different variables
in ascending order, and negating a literal of it changes no variable. -/
namespace DpllSat

/-- The clause has `width` literals, with variables from `1` to `vars` in strictly ascending
order. -/
structure Clause.Uniform (vars width : Nat) (c : Clause) : Prop where
  length : c.length = width
  ascending : (c.map fun l => l.var.index).Pairwise (· < ·)
  mem_range : ∀ l ∈ c, 1 ≤ l.var.index ∧ l.var.index ≤ vars

namespace Clause.Uniform

variable {vars width : Nat} {c d : Clause}

theorem nodup_index (h : Uniform vars width c) : (c.map fun l => l.var.index).Nodup :=
  h.ascending.imp Nat.ne_of_lt

theorem nodup (h : Uniform vars width c) : c.Nodup := h.nodup_index.of_map

theorem neg_not_mem (h : Uniform vars width c) {l : Lit} (hl : l ∈ c) : l.neg ∉ c := fun hn =>
  l.neg_ne (List.inj_on_of_nodup_map h.nodup_index hn hl rfl)

theorem of_map_var {sh : Shape} {picked : List (Fin sh.vars)} (hlen : picked.length = sh.width)
    (hlt : picked.Pairwise (· < ·)) (hc : c.map Lit.var = picked.map sh.var) :
    Uniform sh.vars sh.width c := by
  have hindex : (c.map fun l => l.var.index) = picked.map fun i => i.val + 1 := by
    have hm := congrArg (List.map Var.index) hc
    rw [List.map_map, List.map_map] at hm
    exact hm
  refine ⟨?_, ?_, fun l hl => ⟨l.var.pos, ?_⟩⟩
  · rw [← hlen, ← List.length_map Lit.var, hc, List.length_map]
  · rw [hindex, List.pairwise_map]
    exact hlt.imp Nat.succ_lt_succ
  · have hl' : l.var.index ∈ c.map fun l => l.var.index := List.mem_map_of_mem hl
    rw [hindex] at hl'
    obtain ⟨i, -, hi⟩ := List.mem_map.1 hl'
    omega

end Clause.Uniform

namespace Shape

theorem exists_of_eq_ok_iff {vars width : Nat} :
    (∃ sh, of vars width = .ok sh) ↔ 1 ≤ width ∧ width ≤ vars ∧ vars ≤ maxVariable := by
  constructor
  · rintro ⟨sh, hsh⟩
    unfold of at hsh
    split_ifs at hsh
    omega
  · rintro ⟨h1, h2, h3⟩
    exact ⟨_, of_eq_ok h1 h2 h3⟩

theorem eq_of_of_eq_ok {vars width : Nat} {sh : Shape} (h : of vars width = .ok sh) :
    sh.vars = vars ∧ sh.width = width := by
  obtain ⟨h1, h2, h3⟩ := exists_of_eq_ok_iff.1 ⟨sh, h⟩
  rw [of_eq_ok h1 h2 h3] at h
  cases h
  exact ⟨rfl, rfl⟩

end Shape

namespace Instance

open Clause
open DpllSat.Random (Source)

variable {σ : Type} {src : Source σ} {sh : Shape}

theorem uniform_drawClause (hsrc : src.Lawful sh.vars sh.width) (s : σ) :
    Uniform sh.vars sh.width (drawClause src sh s).1 := by
  obtain ⟨picked, hlen, hlt, hp⟩ := exists_map_var_drawClause hsrc s
  exact .of_map_var hlen hlt hp

theorem map_var_modify_neg (c : Clause) (i : Nat) :
    (c.modify i Lit.neg).map Lit.var = c.map Lit.var := by
  induction c generalizing i with
  | nil => simp
  | cons l c ih => cases i <;> simp [ih]

theorem map_var_drawPlanted (src : Source σ) (sh : Shape) (t : Valuation) (s : σ) :
    (drawPlanted src sh t s).1.map Lit.var = (drawClause src sh s).1.map Lit.var := by
  unfold drawPlanted
  by_cases hany : (drawClause src sh s).1.any t.holds = true
  · simp only [hany, ite_true]
  · simp only [hany]
    exact map_var_modify_neg _ _

theorem uniform_drawPlanted (hsrc : src.Lawful sh.vars sh.width) (t : Valuation) (s : σ) :
    Uniform sh.vars sh.width (drawPlanted src sh t s).1 := by
  obtain ⟨picked, hlen, hlt, hp⟩ := exists_map_var_drawClause hsrc s
  exact .of_map_var hlen hlt ((map_var_drawPlanted src sh t s).trans hp)

namespace Total

variable {model : List Lit} {l : Lit}

theorem length_eq (h : Total sh model) : model.length = sh.vars := by
  rw [← List.length_map Lit.var, h, List.length_map, List.length_finRange]

theorem getElem_var (h : Total sh model) (i : Fin sh.vars) (hi : i.val < model.length) :
    model[i.val].var = sh.var i := by
  have hvar : (model.map Lit.var)[i.val]? = ((List.finRange sh.vars).map sh.var)[i.val]? := by
    rw [h]
  simpa [hi] using hvar

theorem holds_iff (h : Total sh model) {i : Fin sh.vars} (hl : l.var = sh.var i)
    (hi : i.val < model.length) : (Valuation.ofLits model).holds l = true ↔ model[i.val] = l := by
  constructor
  · intro ht
    obtain ⟨j, hj, rfl⟩ := List.getElem_of_mem (h.mem_of_holds hl ht)
    have hj' : j < sh.vars := h.length_eq ▸ hj
    have hij : (⟨j, hj'⟩ : Fin sh.vars) = i :=
      sh.var_injective ((h.getElem_var ⟨j, hj'⟩ hj).symm.trans hl)
    cases hij
    rfl
  · intro ht
    exact h.holds_of_mem (ht ▸ List.getElem_mem hi)

end Total

/-- What is looked up while a clause is made to agree with the model lies in the model and in the
clause. -/
structure InBounds (sh : Shape) (model : List Lit) (c : Clause) : Prop where
  lookup : ∀ l ∈ c, ∃ h : l.var.index - 1 < model.length,
    (Valuation.ofLits model).holds l = true ↔ model[l.var.index - 1] = l
  flip : ∀ i : Fin sh.width, i.val < c.length

theorem inBounds_drawClause (hsrc : src.Lawful sh.vars sh.width) {model : List Lit}
    (h : Total sh model) (s : σ) : InBounds sh model (drawClause src sh s).1 := by
  refine ⟨fun l hl => ?_, fun i => ?_⟩
  · obtain ⟨i, hi⟩ := exists_var_of_mem_drawClause hsrc hl
    have hindex : l.var.index - 1 = i.val := by
      rw [hi]
      exact Nat.add_sub_cancel i.val 1
    have hlt : i.val < model.length := by rw [h.length_eq]; exact i.isLt
    simp only [hindex]
    exact ⟨hlt, h.holds_iff hi hlt⟩
  · rw [length_drawClause hsrc]
    exact i.isLt

end Instance

open Instance Clause
open DpllSat.Random (Source chacha chacha_lawful_of_lt)

/-- Which numbers give an instance, and what it looks like then for every seed: so many clauses of
one width, each with different variables in ascending order, so that none has a literal twice or
with its opposite. That holds for planted instances too, and nothing is looked up out of bounds
when a clause is made to agree with the hidden model, in whatever state of the source it is drawn.
The source may be any whose samples have the size that was asked for and no index twice. -/
theorem generated_instances_uniform {σ : Type} (src : Source σ) (vars clauses width : Nat)
    (seed : UInt64) (hsrc : src.Lawful vars width) :
    ((∃ sh, Shape.of vars width = .ok sh) ↔ 1 ≤ width ∧ width ≤ vars ∧ vars ≤ maxVariable) ∧
    ∀ sh, Shape.of vars width = .ok sh →
      (∀ f, f = random src sh clauses seed ∨ f = (planted src sh clauses seed).1 →
        f.numVars = vars ∧ f.clauses.length = clauses ∧
        ∀ c ∈ f.clauses, Uniform vars width c ∧ c.Nodup ∧ ∀ l ∈ c, l.neg ∉ c) ∧
      ∀ s, InBounds sh (planted src sh clauses seed).2 (drawClause src sh s).1 := by
  refine ⟨Shape.exists_of_eq_ok_iff, fun sh hsh => ?_⟩
  obtain ⟨rfl, rfl⟩ := Shape.eq_of_of_eq_ok hsh
  obtain ⟨htotal, hnum, hlen, -⟩ := planted_spec hsrc clauses seed
  refine ⟨?_, inBounds_drawClause hsrc htotal⟩
  have huniform {c : Clause} (h : Uniform sh.vars sh.width c) :
      Uniform sh.vars sh.width c ∧ c.Nodup ∧ ∀ l ∈ c, l.neg ∉ c :=
    ⟨h, h.nodup, fun _ => h.neg_not_mem⟩
  rintro f (rfl | rfl)
  · refine ⟨rfl, by simp [random], ?_⟩
    exact forall_mem_drawEach (fun _ s => huniform (uniform_drawClause hsrc s)) _ _
  · refine ⟨hnum, hlen, ?_⟩
    exact forall_mem_drawEach (fun _ s => huniform (uniform_drawPlanted hsrc _ s)) _ _

theorem generated_instances_uniform_triples :
    (chacha.Lawful 2 3 ∧ ¬ ∃ sh, Shape.of 2 3 = .ok sh) ∧
    chacha.Lawful 5 3 ∧ ∃ sh, Shape.of 5 3 = .ok sh ∧
      ∀ c ∈ (planted chacha sh 40 7).1.clauses,
        Uniform 5 3 c ∧ c.Nodup ∧ ∀ l ∈ c, l.neg ∉ c := by
  have hwide : chacha.Lawful 2 3 := chacha_lawful_of_lt (by decide)
  have hfits : chacha.Lawful 5 3 := chacha_lawful_of_lt (by decide)
  obtain ⟨hnone, -⟩ := generated_instances_uniform chacha 2 40 3 7 hwide
  obtain ⟨hsome, hall⟩ := generated_instances_uniform chacha 5 40 3 7 hfits
  obtain ⟨sh, hsh⟩ := hsome.2 (by decide)
  obtain ⟨-, -, hclauses⟩ := (hall sh hsh).1 _ (Or.inr rfl)
  exact ⟨⟨hwide, hnone.not.2 (by decide)⟩, hfits, sh, hsh, hclauses⟩

end DpllSat
