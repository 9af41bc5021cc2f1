/-! Variables and literals. A variable is a positive integer that fits a signed
32-bit word, so every literal has an integer name: the variable, negated for the
negative literal. -/
namespace DpllSat

/-- The largest variable: `2 ^ 31 - 1`. -/
def maxVariable : Nat := 2147483647

structure Var where
  index : Nat
  pos : 0 < index
  le_max : index ≤ maxVariable
  deriving DecidableEq

namespace Var

/-- The variable of a given index, if the index is one of `1, …, maxVariable`. -/
def of? (n : Nat) : Option Var :=
  if h : 0 < n ∧ n ≤ maxVariable then some ⟨n, h.1, h.2⟩ else none

instance : Hashable Var := ⟨fun v => hash v.index⟩

theorem ext_index {v w : Var} (h : v.index = w.index) : v = w := by
  cases v; cases w; simp_all

@[simp] theorem of?_index (v : Var) : of? v.index = some v := by
  simp [of?, v.pos, v.le_max]

theorem of?_eq_some_iff {n : Nat} {v : Var} : of? n = some v ↔ v.index = n := by
  constructor
  · intro h
    unfold of? at h
    split at h
    · cases h; rfl
    · cases h
  · rintro rfl
    exact of?_index v

theorem of?_eq_none_iff {n : Nat} : of? n = none ↔ n = 0 ∨ maxVariable < n := by
  unfold of?
  split <;> simp <;> omega

end Var

structure Lit where
  var : Var
  positive : Bool
  deriving DecidableEq

namespace Lit

def neg (l : Lit) : Lit := ⟨l.var, !l.positive⟩

@[simp] theorem neg_neg (l : Lit) : l.neg.neg = l := by simp [neg]

@[simp] theorem neg_var (l : Lit) : l.neg.var = l.var := rfl

theorem neg_ne (l : Lit) : l.neg ≠ l := by
  intro h
  have := congrArg positive h
  simp [neg] at this

theorem neg_eq_iff {k l : Lit} : k.neg = l ↔ k = l.neg := by
  constructor <;> rintro rfl <;> simp

theorem neg_ne_of_var_ne {k l : Lit} (h : k.var ≠ l.var) : k.neg ≠ l := by
  rintro rfl
  exact h rfl

theorem var_eq_iff {k l : Lit} : k.var = l.var ↔ k = l ∨ k = l.neg := by
  rcases k with ⟨v, a⟩
  rcases l with ⟨w, b⟩
  cases a <;> cases b <;> simp [neg]

/-- The integer that names a literal: its variable's index, with a minus sign for
the negative literal. -/
def dimacs (l : Lit) : Int := if l.positive then l.var.index else -l.var.index

def ofDimacs? (n : Int) : Option Lit :=
  (Var.of? n.natAbs).map fun v => ⟨v, decide (0 < n)⟩

theorem dimacs_ne_zero (l : Lit) : l.dimacs ≠ 0 := by
  have := l.var.pos
  unfold dimacs
  split <;> omega

@[simp] theorem ofDimacs?_dimacs (l : Lit) : ofDimacs? l.dimacs = some l := by
  have hp := l.var.pos
  rcases l with ⟨v, s⟩
  have hv : (dimacs ⟨v, s⟩).natAbs = v.index := by cases s <;> simp [dimacs]
  have hs : decide (0 < dimacs ⟨v, s⟩) = s := by
    cases s <;> simp only [dimacs, decide_eq_true_eq, decide_eq_false_iff_not, ite_true,
      Bool.false_eq_true, ite_false] <;> simp only at hp <;> omega
  simp [ofDimacs?, hv, hs]

theorem ofDimacs?_eq_some_iff {n : Int} {l : Lit} : ofDimacs? n = some l ↔ l.dimacs = n := by
  constructor
  · intro h
    obtain ⟨v, hv, rfl⟩ := Option.map_eq_some_iff.1 h
    have hn := Var.of?_eq_some_iff.1 hv
    have hp := v.pos
    unfold dimacs
    split <;> rename_i hs <;> simp only [decide_eq_true_eq] at hs <;> simp only <;> omega
  · rintro rfl
    exact ofDimacs?_dimacs l

theorem ofDimacs?_eq_none_iff {n : Int} :
    ofDimacs? n = none ↔ n = 0 ∨ maxVariable < n.natAbs := by
  simp [ofDimacs?, Var.of?_eq_none_iff]

theorem dimacs_injective {k l : Lit} (h : k.dimacs = l.dimacs) : k = l := by
  have hk := ofDimacs?_dimacs k
  rw [h, ofDimacs?_dimacs] at hk
  exact (Option.some.inj hk).symm

def text (l : Lit) : List Char :=
  if l.positive then Nat.toDigits 10 l.var.index else '-' :: Nat.toDigits 10 l.var.index

instance : ToString Lit := ⟨fun l => String.ofList l.text⟩

end Lit
end DpllSat
