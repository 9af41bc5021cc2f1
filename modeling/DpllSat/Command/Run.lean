import DpllSat.Benchmark.Run
import DpllSat.Command.Arguments
import DpllSat.Instance
import DpllSat.Random.Sample
import DpllSat.Solution

/-! What each command does, and the report of a command that fails. -/
namespace DpllSat

/-- Why a command failed: the outermost message, and the causes below it in order. -/
structure Failure where
  message : String
  causes : List String
  deriving DecidableEq

namespace Failure

def ofMessage (message : String) : Failure := ⟨message, []⟩

/-- A single cause stands by itself; several are numbered from zero. -/
def causeLines : List String → List String
  | [] => []
  | [cause] => ["\nCaused by:\n    " ++ cause ++ "\n"]
  | causes => "\nCaused by:\n" ::
      causes.zipIdx.map fun (cause, i) => s!"    {i}: {cause}\n"

def render (f : Failure) : String :=
  s!"Error: {f.message}\n" ++ String.join (causeLines f.causes)

def ofReadError (path : String) (e : Dimacs.ReadError) : Failure :=
  ⟨s!"failed to load {path}", e.message :: e.cause?.toList.map FileError.message⟩

def ofRunError : Benchmark.RunError → Failure
  | .listing dir cause => ⟨s!"failed to list benchmark dir {dir.text}", [cause.message]⟩
  | .creating log cause => ⟨s!"failed to create {log.text}", [cause.message]⟩
  | .writing cause => .ofMessage cause.message

end Failure

namespace Command

variable {m : Type → Type} [Monad m] [Host m]

@[specialize] def printLine (s : String) : m Unit := Host.print (.text (s ++ "\n"))

@[specialize] def load (path : String) : m (Except Dimacs.ReadError Dimacs.Reading) := do
  match ← Host.read (.ofText path) with
  | .error e => return .error (.file e)
  | .ok bytes => return Dimacs.read bytes

@[specialize] def runSolve (path : String) (config : Config) (verify : Bool) :
    m (Except Failure Unit) := do
  match config.validate with
  | .error message => return .error (.ofMessage message)
  | .ok () =>
    let start ← Host.now
    match ← load path with
    | .error e => return .error (.ofReadError path e)
    | .ok reading =>
      let f := reading.cnf
      let report ← Solver.solveUnder (← Host.monitor config) config.weight f
      let taken := (← Host.now) - start
      let s := report.stats
      Host.print (.text report.result.text)
      printLine s!"c decisions={s.decisions} propagations={s.propagations} conflicts={s.conflicts}"
      Host.print (.solveTime taken)
      match verify, report.result with
      | true, .sat model =>
        match f.firstUnsatisfied model with
        | some i => return .error (.ofMessage s!"model does not satisfy clause {i + 1}")
        | none =>
          printLine "c model verified"
          return .ok ()
      | _, _ => return .ok ()

def summary (rows : List Benchmark.Row) : String :=
  let count (status : Benchmark.Status) := rows.countP fun r => r.status = status
  s!"files={rows.length} sat={count .sat} unsat={count .unsat} unknown={count .unknown} "
    ++ s!"parse_error={count .parseError}"

@[specialize] def runBench (dir log : String) (setup : Benchmark.Setup) :
    m (Except Failure Unit) := do
  match setup.solver.validate with
  | .error message => return .error (.ofMessage message)
  | .ok () =>
    printLine "Running on benchmarks..."
    let start ← Host.now
    match ← Benchmark.run setup (.ofText dir) (.ofText log) with
    | .error e => return .error (.ofRunError e)
    | .ok rows =>
      printLine (summary rows)
      Host.print (.totalTime ((← Host.now) - start))
      return .ok ()

/-- Writes a text to a file that may not exist yet. -/
@[specialize] def writeFile (path text : String) : m (Except FileError Unit) := do
  match ← Host.create (.ofText path) with
  | .error e => return .error e
  | .ok handle => Host.append handle text

@[specialize] def runGenerate (vars clauses width seed : Nat) (planted : Bool) (out : String) :
    m (Except Failure Unit) := do
  match Shape.of vars width with
  | .error e => return .error (.ofMessage e.message)
  | .ok shape =>
    let f := if planted then (Instance.planted Random.chacha shape clauses (.ofNat seed)).1
      else Instance.random Random.chacha shape clauses (.ofNat seed)
    match ← writeFile out f.toDimacs with
    | .error e => return .error ⟨s!"failed to write {out}", [e.message]⟩
    | .ok () =>
      printLine (s!"GEN: wrote {out} | vars={vars} clauses={f.clauses.length} k={width} "
        ++ s!"planted={planted}")
      return .ok ()

@[specialize] def runStats (path : String) (weight : Float) : m (Except Failure Unit) := do
  match ← load path with
  | .error e => return .error (.ofReadError path e)
  | .ok reading =>
    let f := reading.cnf
    let pick := match Branching.pick weight f.clauses with
      | some v => toString v.index
      | none => "none"
    printLine s!"num_vars={f.numVars}"
    printLine s!"num_clauses={f.clauses.length}"
    printLine s!"max_var={f.maxVar}"
    printLine s!"max_clause_width={f.maxClauseWidth}"
    printLine s!"jw2s_pick={pick}"
    return .ok ()

@[specialize] def run : Command → m (Except Failure Unit)
  | solve path weight timeout? verify => runSolve path ⟨weight, timeout?⟩ verify
  | bench dir log timeout weight progress =>
    runBench dir log ⟨⟨weight, none⟩, timeout, progress⟩
  | generate vars clauses width seed planted out =>
    runGenerate vars clauses width seed planted out
  | stats path weight => runStats path weight

end Command
end DpllSat
