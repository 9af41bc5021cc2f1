import DpllSat.Decimal.Positional
import DpllSat.Log
import DpllSat.Search.Run
import DpllSat.Valuation

/-! The solver: the search run on a formula, and its model completed to all variables. -/
namespace DpllSat

def defaultWeight : Float := 2.0

/-- The base of the branching scores, and how many milliseconds the search may take. -/
structure Config where
  weight : Float
  timeout? : Option Nat

namespace Config

def default : Config := ⟨defaultWeight, none⟩

def validate (c : Config) : Except String Unit :=
  if c.weight.isFinite && 1.0 < c.weight then .ok ()
  else .error s!"weight must be a finite number > 1, got {Decimal.text c.weight}"

def expired (c : Config) (elapsed : Nat) : Bool := c.timeout?.any (· ≤ elapsed)

end Config

inductive Result
  | sat (model : List Lit)
  | unsat
  | unknown
  deriving DecidableEq

def Result.isSat : Result → Bool
  | sat _ => true
  | _ => false

def Result.model? : Result → Option (List Lit)
  | sat model => some model
  | _ => none

structure Report where
  result : Result
  stats : Stats
  deriving DecidableEq

def Event.log : Event → LogRecord
  | started vars clauses weight =>
    ⟨.debug, s!"dpll start: vars={vars} clauses={clauses} weight={Decimal.text weight}"⟩
  | decided l depth => ⟨.trace, s!"decide {l} depth={depth}"⟩
  | decisionConflict l => ⟨.trace, s!"conflict on decision {l}"⟩
  | propagationConflict => ⟨.trace, "conflict during unit propagation"⟩
  | deadlineReached n => ⟨.warn, s!"dpll deadline reached after {n} decisions"⟩
  | finished sat s =>
    ⟨.debug, s!"dpll done: sat={sat} decisions={s.decisions} propagations={s.propagations} "
      ++ s!"conflicts={s.conflicts} max_depth={s.maxDepth}"⟩

namespace Solver

open Search

/-- The answer to a search on `f`. A model covers the declared variables and all that
occur. -/
def resultOf (f : Cnf) : Verdict → Result
  | .model trail => .sat (Valuation.complete (max f.numVars f.maxVar) trail)
  | .exhausted => .unsat
  | .timedOut => .unknown

/-- Solves `f` under a monitor. A formula with an empty clause needs no search. -/
@[specialize] def solveUnder {m : Type → Type} [Monad m] (watch : Monitor m) (weight : Float)
    (f : Cnf) : m Report := do
  watch.record (.started f.numVars f.clauses.length weight)
  let out ← if f.hasEmptyClause then pure ⟨.exhausted, .zero⟩
    else Search.run watch weight (.start f.clauses)
  let result := resultOf f out.verdict
  if out.verdict = .timedOut then watch.record (.deadlineReached out.stats.decisions)
  watch.record (.finished result.isSat out.stats)
  return ⟨result, out.stats⟩

structure Watched where
  checks : Nat
  events : Array Event

/-- The monitor that answers the `n`-th question whether the time is up by `expired n`. -/
def scripted (expired : Nat → Bool) : Monitor (StateM Watched) where
  expired := do
    let s ← get
    set { s with checks := s.checks + 1 }
    return expired s.checks
  record e := modify fun s => { s with events := s.events.push e }

def solveScripted (expired : Nat → Bool) (weight : Float) (f : Cnf) : Report × List Event :=
  let (report, s) := (solveUnder (scripted expired) weight f).run ⟨0, #[]⟩
  (report, s.events.toList)

end Solver

open Solver

/-- Solves `f` on a clock that shows `elapsed n` milliseconds at the `n`-th check. -/
def Cnf.solveTimed (elapsed : Nat → Nat) (config : Config) (f : Cnf) : Report × List Event :=
  solveScripted (fun n => config.expired (elapsed n)) config.weight f

def Cnf.solve (weight : Float) (f : Cnf) : Report :=
  (solveScripted (fun _ => false) weight f).1

def Cnf.isSat (f : Cnf) : Bool := (f.solve defaultWeight).result.isSat

def Cnf.model? (f : Cnf) : Option (List Lit) := (f.solve defaultWeight).result.model?

end DpllSat
