import DpllSat.Path
import DpllSat.Solver

/-! One row of a benchmark run and its line in the results log. -/
namespace DpllSat
namespace Benchmark

inductive Status
  | sat | unsat | unknown | parseError | internalError
  deriving DecidableEq

def Status.label : Status → String
  | sat => "SAT"
  | unsat => "UNSAT"
  | unknown => "UNKNOWN"
  | parseError => "PARSE_ERROR"
  | internalError => "INTERNAL_ERROR"

def Status.ofResult : Result → Status
  | .sat _ => sat
  | .unsat => unsat
  | .unknown => unknown

structure Row where
  path : String
  status : Status
  milliseconds : Nat
  vars? : Option Nat
  clauses? : Option Nat
  stats? : Option Stats
  model? : Option (List Lit)
  deriving DecidableEq

namespace Row

def blank (path : Path) (status : Status) : Row := ⟨path.text, status, 0, none, none, none, none⟩

def ofReport (path : Path) (f : Cnf) (report : Report) : Row :=
  ⟨path.text, .ofResult report.result, 0, some f.numVars, some f.clauses.length,
    some report.stats, report.result.model?⟩

def pathParts (path : String) : List String := (path.toList.splitOn '/').map String.ofList

/-- The last part of the path, not counting empty parts and single dots. A path that has
no such part, or ends in two dots, is given whole. -/
def fileName (r : Row) : String :=
  match ((pathParts r.path).filter fun p => p != "" && p != ".").getLast? with
  | none | some ".." => r.path
  | some name => name

def modelText (model : List Lit) : List Char :=
  '[' :: (model.flatMap (fun l => l.text ++ [',']) ++ [']'])

def logLine (r : Row) : String :=
  let outcome := s!"{r.fileName} : {r.status.label}"
  match r.model? with
  | none => outcome
  | some model => outcome ++ "  " ++ String.ofList (modelText model)

end Row
end Benchmark
end DpllSat
