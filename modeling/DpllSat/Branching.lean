import DpllSat.Cnf

/-! The choice of the variable to branch on. Each occurrence of a variable in a clause
of length `n` scores `weight ^ (-n)`, whatever its sign, and the variable with the
highest score is taken, the first one seen among equals. -/
namespace DpllSat
namespace Branching

/-- `a ^ n` by repeated squaring, lowest bit of `n` first, times `r`. -/
def powerTimes (r a : Float) (n : Nat) : Float :=
  if n = 0 then r
  else powerTimes (if n % 2 = 1 then r * a else r) (a * a) (n / 2)
termination_by n
decreasing_by omega

def power (a : Float) (n : Int) : Float :=
  if n < 0 then 1.0 / powerTimes 1.0 a n.natAbs else powerTimes 1.0 a n.natAbs

def maxExponent : Nat := 2147483647

def share (weight : Float) (n : Nat) : Float := power weight (-(min n maxExponent : Nat))

/-- Scores by variable. The variables are listed in the order in which they were
first seen. -/
structure Scores where
  vars : Array Var
  score : Std.HashMap Var Float

namespace Scores

def empty : Scores := ⟨#[], ∅⟩

def add (s : Scores) (v : Var) (x : Float) : Scores :=
  match s.score[v]? with
  | some y => { s with score := s.score.insert v (y + x) }
  | none => ⟨s.vars.push v, s.score.insert v (0.0 + x)⟩

def addClause (weight : Float) (s : Scores) (c : Clause) : Scores :=
  let x := share weight c.length
  c.foldl (fun s l => s.add l.var x) s

def ofFormula (weight : Float) (F : Formula) : Scores :=
  F.foldl (addClause weight) empty

def toList (s : Scores) : List (Var × Float) :=
  s.vars.toList.map fun v => (v, s.score.getD v 0.0)

theorem mem_vars_add {s : Scores} {v w : Var} {x : Float} (h : w ∈ (s.add v x).vars) :
    w ∈ s.vars ∨ w = v := by
  unfold add at h
  split at h
  · exact Or.inl h
  · simpa using h

theorem mem_vars_foldl_add {s : Scores} {c : Clause} {w : Var} {x : Float}
    (h : w ∈ (c.foldl (fun s l => s.add l.var x) s).vars) :
    w ∈ s.vars ∨ ∃ l ∈ c, l.var = w := by
  induction c generalizing s with
  | nil => exact Or.inl h
  | cons l c ih =>
    rcases ih h with h | ⟨k, hk, e⟩
    · rcases mem_vars_add h with h | rfl
      · exact Or.inl h
      · exact Or.inr ⟨l, by simp, rfl⟩
    · exact Or.inr ⟨k, by simp [hk], e⟩

theorem mem_vars_foldl_addClause {weight : Float} {s : Scores} {F : Formula} {w : Var}
    (h : w ∈ (F.foldl (addClause weight) s).vars) :
    w ∈ s.vars ∨ ∃ c ∈ F, ∃ l ∈ c, l.var = w := by
  induction F generalizing s with
  | nil => exact Or.inl h
  | cons c F ih =>
    rcases ih h with h | ⟨d, hd, e⟩
    · rcases mem_vars_foldl_add h with h | e
      · exact Or.inl h
      · exact Or.inr ⟨c, by simp, e⟩
    · exact Or.inr ⟨d, by simp [hd], e⟩

theorem mem_vars_ofFormula {weight : Float} {F : Formula} {w : Var}
    (h : w ∈ (ofFormula weight F).vars) : ∃ c ∈ F, ∃ l ∈ c, l.var = w := by
  rcases mem_vars_foldl_addClause h with h | h
  · simp [empty] at h
  · exact h

end Scores

/-- The running best of a list of candidates: a candidate takes over unless its score is
at most the best so far, so an incomparable score takes over. -/
def better (best : Option (Var × Float)) (c : Var × Float) : Option (Var × Float) :=
  match best with
  | some b => if c.2 ≤ b.2 then some b else some c
  | none => some c

theorem mem_of_foldl_better {best : Option (Var × Float)} {cs : List (Var × Float)}
    {c : Var × Float} (h : cs.foldl better best = some c) : best = some c ∨ c ∈ cs := by
  induction cs generalizing best with
  | nil => exact Or.inl h
  | cons d cs ih =>
    rcases ih h with h | h
    · unfold better at h
      split at h
      · split at h
        · exact Or.inl h
        · cases h; exact Or.inr (by simp)
      · cases h; exact Or.inr (by simp)
    · exact Or.inr (by simp [h])

def pick (weight : Float) (F : Formula) : Option Var :=
  ((Scores.ofFormula weight F).toList.foldl better none).map Prod.fst

theorem mem_of_pick {weight : Float} {F : Formula} {v : Var} (h : pick weight F = some v) :
    ∃ c ∈ F, ∃ l ∈ c, l.var = v := by
  obtain ⟨c, hc, rfl⟩ := Option.map_eq_some_iff.1 h
  rcases mem_of_foldl_better hc with e | hc
  · cases e
  · obtain ⟨w, hw, rfl⟩ := List.mem_map.1 hc
    exact Scores.mem_vars_ofFormula (by simpa using hw)

end Branching
end DpllSat
