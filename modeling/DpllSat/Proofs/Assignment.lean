import DpllSat.Cnf
import Mathlib.Data.List.Nodup

/-! Truth assignments of the variables, what it means that one satisfies a formula, and
the assignment that makes a list of literals true. -/
namespace DpllSat

abbrev Assignment := Var → Bool

def Occurs (v : Var) (F : Formula) : Prop := ∃ c ∈ F, ∃ l ∈ c, l.var = v

namespace Assignment

def Holds (a : Assignment) (l : Lit) : Prop := a l.var = l.positive

instance (a : Assignment) (l : Lit) : Decidable (a.Holds l) :=
  inferInstanceAs (Decidable (_ = _))

def Satisfies (a : Assignment) (F : Formula) : Prop := ∀ c ∈ F, ∃ l ∈ c, a.Holds l

instance (a : Assignment) (F : Formula) : Decidable (a.Satisfies F) :=
  inferInstanceAs (Decidable (∀ c ∈ F, ∃ l ∈ c, a.Holds l))

@[simp] theorem holds_neg (a : Assignment) (l : Lit) : a.Holds l.neg ↔ ¬ a.Holds l := by
  rcases l with ⟨v, p⟩
  cases p <;> simp [Holds, Lit.neg]

/-- The assignment that makes true just the variables of the positive literals of `T`. -/
def ofLits (T : List Lit) : Assignment := fun v => decide (⟨v, true⟩ ∈ T)

/-- A list that names no variable twice can be made true. -/
theorem holds_ofLits {T : List Lit} (hT : (T.map Lit.var).Nodup) {l : Lit} (hl : l ∈ T) :
    (ofLits T).Holds l := by
  rcases l with ⟨v, p⟩
  cases p with
  | true => simpa [Holds, ofLits] using hl
  | false =>
    have hn : (⟨v, true⟩ : Lit) ∉ T := by
      intro ht
      have e := List.inj_on_of_nodup_map hT hl ht rfl
      simp at e
    simpa [Holds, ofLits] using hn

end Assignment

def Satisfiable (F : Formula) : Prop := ∃ a : Assignment, a.Satisfies F

/-- A clash-free list of literals that meets every clause is as good as an assignment. -/
theorem satisfiable_of_lits {F : Formula} {T : List Lit} (hT : (T.map Lit.var).Nodup)
    (h : ∀ c ∈ F, ∃ l ∈ c, l ∈ T) : Satisfiable F := by
  refine ⟨.ofLits T, fun c hc => ?_⟩
  obtain ⟨l, hl, ht⟩ := h c hc
  exact ⟨l, hl, Assignment.holds_ofLits hT ht⟩

theorem not_satisfiable_of_nil_mem {F : Formula} (h : [] ∈ F) : ¬ Satisfiable F := by
  rintro ⟨a, ha⟩
  obtain ⟨l, hl, -⟩ := ha [] h
  cases hl

end DpllSat
