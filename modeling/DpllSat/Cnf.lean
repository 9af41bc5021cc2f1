import DpllSat.TruthTable

/-! Formulas in conjunctive normal form, and the check of a model against one.
Clauses are kept as given: repeated and opposite literals, repeated and empty
clauses and variables beyond the declared count are all allowed. -/
namespace DpllSat

abbrev Clause := List Lit

abbrev Formula := List Clause

structure Cnf where
  numVars : Nat
  clauses : Formula
  deriving DecidableEq

namespace Cnf

def addClause (f : Cnf) (c : Clause) : Cnf := { f with clauses := f.clauses ++ [c] }

def ofDimacsClauses? (numVars : Nat) (clauses : List (List Int)) : Option Cnf :=
  (clauses.mapM (List.mapM Lit.ofDimacs?)).map fun cs => ⟨numVars, cs⟩

def maxVar (f : Cnf) : Nat :=
  f.clauses.foldl (fun m c => c.foldl (fun m l => max m l.var.index) m) 0

def maxClauseWidth (f : Cnf) : Nat :=
  f.clauses.foldl (fun m c => max m c.length) 0

def hasEmptyClause (f : Cnf) : Bool := f.clauses.any List.isEmpty

def truthTable (f : Cnf) (model : List Lit) : TruthTable := .ofLits (f.maxVar + 1) model

/-- The index of the first clause without a literal that holds in `model`. -/
def firstUnsatisfied (f : Cnf) (model : List Lit) : Option Nat :=
  let t := f.truthTable model
  f.clauses.findIdx? fun c => !c.any t.holds

def satisfiedBy (f : Cnf) (model : List Lit) : Bool := (f.firstUnsatisfied model).isNone

end Cnf
end DpllSat
