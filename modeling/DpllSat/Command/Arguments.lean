import DpllSat.Decimal.Reading
import DpllSat.Solver
import DpllSat.Text.Integer

/-! The command line. A subcommand is followed by its options, flags and positional
arguments in any order; anything that does not fit is a usage error. -/
namespace DpllSat

inductive Command
  | solve (path : String) (weight : Float) (timeout? : Option Nat) (verify : Bool)
  | bench (dir log : String) (timeout : Nat) (weight : Float) (progress : Bool)
  | generate (vars clauses width seed : Nat) (planted : Bool) (out : String)
  | stats (path : String) (weight : Float)

namespace Command

structure Form where
  valued : List String
  flags : List String

structure Given where
  values : List (String × String)
  flags : List String
  positionals : List String

namespace Given

def empty : Given := ⟨[], [], []⟩

def value? (g : Given) (name : String) : Option String := g.values.lookup name

def addValue (g : Given) (name value : String) : Option Given :=
  if (g.value? name).isSome then none else some { g with values := (name, value) :: g.values }

def addFlag (g : Given) (name : String) : Option Given :=
  if g.flags.contains name then none else some { g with flags := name :: g.flags }

def addPositional (g : Given) (value : String) : Given :=
  { g with positionals := g.positionals ++ [value] }

end Given

/-- A single dash is a plain word; all else that starts with one is not. -/
def isPlain (arg : String) : Bool := arg.toList.head? != some '-' || arg == "-"

/-- Sorts out the arguments. An option takes its value after an equals sign or, unless it
looks like an option, from the next argument; two dashes end the options. -/
def Form.sort (form : Form) : List String → Given → Option Given
  | [], g => some g
  | arg :: rest, g =>
    if isPlain arg then form.sort rest (g.addPositional arg)
    else if arg = "--" then some (rest.foldl Given.addPositional g)
    else match arg.toList with
      | '-' :: '-' :: cs =>
        let name := String.ofList (cs.takeWhile (· != '='))
        let attached? := match cs.dropWhile (· != '=') with
          | [] => none
          | _ :: value => some (String.ofList value)
        if form.flags.contains name then
          match attached? with
          | some _ => none
          | none => (g.addFlag name).bind fun g => form.sort rest g
        else if form.valued.contains name then
          match attached? with
          | some value => (g.addValue name value).bind fun g => form.sort rest g
          | none =>
            match rest with
            | value :: rest =>
              if isPlain value then (g.addValue name value).bind fun g => form.sort rest g
              else none
            | [] => none
        else none
      | _ => none

def Given.get {α : Type} (g : Given) (name : String) (read : String → Option α)
    (absent : Option α) : Option α :=
  match g.value? name with
  | some value => read value
  | none => absent

def path? (s : String) : Option String := if s = "" then none else some s

def natUpTo? (bound : Nat) (s : String) : Option Nat := Text.unsigned? bound s.toList

/-- A count of variables may carry either sign, but not be negative. -/
def variableCount? (s : String) : Option Nat :=
  ((Text.signed? Text.maxSigned64 s.toList).filter fun n =>
    0 ≤ n && n ≤ (Text.maxUnsigned32 : Int)).map Int.toNat

def defaultLog : String := "benchmarks-results.log"

def defaultBudget : Nat := 30000

def defaultWidth : Nat := 3

def defaultSeed : Nat := 1

def word64? : String → Option Nat := natUpTo? Text.maxUnsigned64

def readWeight (g : Given) : Option Float := g.get "weight" Decimal.float? (some defaultWeight)

def readSolve (args : List String) : Option Command := do
  let g ← Form.sort ⟨["weight", "timeout-ms"], ["verify"]⟩ args .empty
  let [path] := g.positionals | none
  let path ← path? path
  let weight ← readWeight g
  let timeout? ← g.get "timeout-ms" (fun s => (word64? s).map some) (some none)
  return .solve path weight timeout? (g.flags.contains "verify")

def readBench (args : List String) : Option Command := do
  let g ← Form.sort ⟨["dir", "log", "timeout-ms", "weight"], ["progress"]⟩ args .empty
  let [] := g.positionals | none
  let dir ← g.get "dir" path? none
  let log ← g.get "log" path? (some defaultLog)
  let timeout ← g.get "timeout-ms" word64? (some defaultBudget)
  let weight ← readWeight g
  return .bench dir log timeout weight (g.flags.contains "progress")

def readGenerate (args : List String) : Option Command := do
  let g ← Form.sort ⟨["vars", "clauses", "k", "seed", "out"], ["planted"]⟩ args .empty
  let [] := g.positionals | none
  let vars ← g.get "vars" variableCount? none
  let clauses ← g.get "clauses" word64? none
  let width ← g.get "k" word64? (some defaultWidth)
  let seed ← g.get "seed" word64? (some defaultSeed)
  let out ← g.get "out" path? none
  return .generate vars clauses width seed (g.flags.contains "planted") out

def readStats (args : List String) : Option Command := do
  let g ← Form.sort ⟨["weight"], []⟩ args .empty
  let [path] := g.positionals | none
  return .stats (← path? path) (← readWeight g)

/-- The command that the arguments ask for, unless they are a usage error. -/
def read : List String → Option Command
  | "solve" :: args => readSolve args
  | "bench" :: args => readBench args
  | "gen" :: args => readGenerate args
  | "stats" :: args => readStats args
  | _ => none

end Command
end DpllSat
