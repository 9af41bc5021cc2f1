import DpllSat.Benchmark.Inputs
import DpllSat.Benchmark.Row
import DpllSat.Dimacs.Reader

/-! Benchmark runs: every formula file below a directory is solved in turn, and each row
goes to a results log as soon as it is known. -/
namespace DpllSat
namespace Benchmark

structure Setup where
  solver : Config
  /-- How many milliseconds a file may take. -/
  budget : Nat
  progress : Bool

def Setup.config (setup : Setup) : Config :=
  { setup.solver with timeout? := some (match setup.solver.timeout? with
    | none => setup.budget
    | some t => min t setup.budget) }

inductive RunError
  | listing (dir : Path) (cause : FileError)
  | creating (log : Path) (cause : FileError)
  | writing (cause : FileError)
  deriving DecidableEq

variable {m : Type → Type} [Monad m] [Host m]

@[specialize] def solveFile (config : Config) (path : Path) : m Row := do
  match ← Host.read path with
  | .error _ => return .blank path .parseError
  | .ok bytes =>
    match Dimacs.read bytes with
    | .error _ => return .blank path .parseError
    | .ok reading =>
      let watch ← Host.monitor config
      let report ← Solver.solveUnder watch config.weight reading.cnf
      return .ofReport path reading.cnf report

/-- The row of one file. A row that comes when the budget is used up is thrown away for a
blank one. -/
@[specialize] def runFile (setup : Setup) (path : Path) : m Row := do
  let start ← Host.now
  let row ← solveFile setup.config path
  let taken := (← Host.now) - start
  let row := if setup.budget ≤ taken then .blank path .unknown else row
  return { row with milliseconds := taken }

@[specialize] def runFiles (setup : Setup) (log : Host.Handle m) :
    List Path → m (Except RunError (List Row))
  | [] => return .ok []
  | path :: paths => do
    let row ← runFile setup path
    if setup.progress then
      Host.print (.progress row.path row.status.label row.milliseconds)
    match ← Host.append log (row.logLine ++ "\n") with
    | .error e => return .error (.writing e)
    | .ok () => return (← runFiles setup log paths).map (row :: ·)

@[specialize] def run (setup : Setup) (dir log : Path) : m (Except RunError (List Row)) := do
  match ← collect dir with
  | .error e => return .error (.listing dir e)
  | .ok found =>
    match ← Host.create log with
    | .error e => return .error (.creating log e)
    | .ok handle => runFiles setup handle ((found.mergeSort pathLe).map dir.under)

end Benchmark
end DpllSat
