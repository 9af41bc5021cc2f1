import DpllSat.Dimacs.Writer
import DpllSat.Solver

/-! The text of an answer: a status line and, for a model, value lines of up to ten
literals and a closing zero. -/
namespace DpllSat
namespace Solution

def litsPerLine : Nat := 10

/-- The list cut into pieces of `n` elements, the last one possibly shorter; `n` is
positive. -/
def chunks {α : Type} (n : Nat) (xs : List α) : List (List α) :=
  match xs with
  | [] => []
  | x :: rest => (x :: rest.take (n - 1)) :: chunks n (rest.drop (n - 1))
termination_by xs.length
decreasing_by simp only [List.length_drop, List.length_cons]; omega

def valueLine (ls : List Lit) : List Char := 'v' :: ls.flatMap fun l => ' ' :: l.text

def linesOf : Result → List (List Char)
  | .sat model =>
    "s SATISFIABLE".toList :: ((chunks litsPerLine model).map valueLine ++ ["v 0".toList])
  | .unsat => ["s UNSATISFIABLE".toList]
  | .unknown => ["s UNKNOWN".toList]

end Solution

def Result.text (r : Result) : String := Dimacs.unlines (Solution.linesOf r)

end DpllSat
