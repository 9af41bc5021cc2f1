import DpllSat.Cnf

/-! Simplification of a formula under a literal, and unit propagation to a fixpoint.
A clause that loses its last literal is a contradiction; a clause that was empty from
the start is passed through. -/
namespace DpllSat
namespace Propagation

def strike (l : Lit) (c : Clause) : Option Clause :=
  if c.contains l then
    match c.filter (· != l) with
    | [] => none
    | d => some d
  else some c

/-- The formula under the assumption `l`: the clauses that hold are dropped and `l.neg`
is struck from the others. -/
def assume (l : Lit) (F : Formula) : Option Formula :=
  (F.filter fun c => !c.contains l).mapM (strike l.neg)

@[simp] theorem assume_nil (l : Lit) : assume l [] = some [] := rfl

theorem assume_cons (l : Lit) (c : Clause) (F : Formula) :
    assume l (c :: F) =
      if l ∈ c then assume l F
      else (strike l.neg c).bind fun d => (assume l F).map (d :: ·) := by
  by_cases h : l ∈ c
  · simp [assume, h]
  · simp only [assume, List.filter_cons, List.contains_eq_mem, h, decide_false, Bool.not_false,
      ite_true, ite_false, List.mapM_cons]
    cases strike l.neg c with
    | none => rfl
    | some d =>
      simp only [Option.bind_some, Option.bind_eq_bind, Option.pure_def]
      cases List.mapM (strike l.neg) (List.filter (fun c => !decide (l ∈ c)) F) <;> rfl

theorem length_assume_le {l : Lit} {F G : Formula} (h : assume l F = some G) :
    G.length ≤ F.length := by
  induction F generalizing G with
  | nil => cases h; simp
  | cons c F ih =>
    rw [assume_cons] at h
    split at h
    · exact Nat.le_trans (ih h) (by simp)
    · obtain ⟨d, -, h⟩ := Option.bind_eq_some_iff.1 h
      obtain ⟨H, hH, rfl⟩ := Option.map_eq_some_iff.1 h
      simpa using ih hH

def unit? : Formula → Option Lit
  | [] => none
  | [l] :: _ => some l
  | _ :: F => unit? F

theorem mem_of_unit? {F : Formula} {l : Lit} (h : unit? F = some l) : [l] ∈ F := by
  fun_induction unit? F with
  | case1 => cases h
  | case2 k F => cases h; simp
  | case3 c F _ ih => exact List.mem_cons_of_mem _ (ih h)

theorem length_assume_lt {l : Lit} {F G : Formula} (hl : [l] ∈ F) (h : assume l F = some G) :
    G.length < F.length := by
  induction F generalizing G with
  | nil => cases hl
  | cons c F ih =>
    rw [assume_cons] at h
    split at h
    · exact Nat.lt_succ_of_le (length_assume_le h)
    · rename_i hc
      obtain ⟨d, -, h⟩ := Option.bind_eq_some_iff.1 h
      obtain ⟨H, hH, rfl⟩ := Option.map_eq_some_iff.1 h
      have hF : [l] ∈ F := by
        rcases List.mem_cons.1 hl with e | e
        · subst e; simp at hc
        · exact e
      simpa using ih hF hH

/-- What unit propagation did: the literals it assumed, in order, and the formula that
is left, or nothing if a clause became empty. -/
structure Outcome where
  forced : List Lit
  residual? : Option Formula
  deriving DecidableEq

def propagate (F : Formula) : Outcome :=
  match _hu : unit? F with
  | none => ⟨[], some F⟩
  | some l =>
    match _ha : assume l F with
    | none => ⟨[], none⟩
    | some G =>
      let rest := propagate G
      ⟨l :: rest.forced, rest.residual?⟩
termination_by F.length
decreasing_by exact length_assume_lt (mem_of_unit? _hu) _ha

end Propagation

/-- A formula together with the literals assumed on the way to it, oldest first. -/
structure Branch where
  formula : Formula
  trail : List Lit
  deriving DecidableEq

namespace Branch

def ofCnf (f : Cnf) : Branch := ⟨f.clauses, []⟩

def assume (b : Branch) (l : Lit) : Option Branch :=
  (Propagation.assume l b.formula).map fun F => ⟨F, b.trail ++ [l]⟩

def propagate (b : Branch) : Option Branch :=
  let p := Propagation.propagate b.formula
  p.residual?.map fun F => ⟨F, b.trail ++ p.forced⟩

end Branch
end DpllSat
