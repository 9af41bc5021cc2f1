import DpllSat.FileSystem
import DpllSat.Solver

/-! What the commands ask of their surroundings: files, a clock and a place for output.
A command is written for any such host; a `Desk` is one in memory. -/
namespace DpllSat

/-- A piece of output. Times are kept apart from the text around them. -/
inductive Notice
  | text (s : String)
  | progress (path status : String) (milliseconds : Nat)
  | solveTime (milliseconds : Nat)
  | totalTime (milliseconds : Nat)
  deriving DecidableEq

def Notice.render (seconds milliseconds : Nat → String) : Notice → String
  | text s => s
  | progress path status ms => s!"path={path} status={status} wall_ms={milliseconds ms}\n"
  | solveTime ms => s!"c time: {seconds ms} seconds\n"
  | totalTime ms => s!"Execution time: {seconds ms} seconds\n"

class Host (m : Type → Type) where
  Handle : Type
  read : Path → m (Except FileError (List UInt8))
  create : Path → m (Except FileError Handle)
  append : Handle → String → m (Except FileError Unit)
  list : Path → m Listing
  isDirectory : Path → m Bool
  /-- Milliseconds since some fixed moment. -/
  now : m Nat
  print : Notice → m Unit

@[specialize] def Host.monitor {m : Type → Type} [Monad m] [Host m] (config : Config) :
    m (Search.Monitor m) := do
  let start ← Host.now
  return {
    expired := do return config.expired ((← Host.now) - start)
    record := fun _ => pure () }

structure Desk where
  files : FileSystem
  printed : Array Notice

namespace Desk

def create (path : Path) : StateM Desk (Except FileError Nat) := fun d =>
  match d.files.create path with
  | .error e => (.error e, d)
  | .ok (id, fs) => (.ok id, { d with files := fs })

instance : Host (StateM Desk) where
  Handle := Nat
  read path := fun d => (d.files.read path, d)
  create := create
  append id text := fun d =>
    (.ok (), { d with files := d.files.append id (Text.encode text.toList) })
  list path := fun d => (d.files.list path, d)
  isDirectory path := fun d => (d.files.isDirectory path, d)
  now := pure 0
  print n := fun d => ((), { d with printed := d.printed.push n })

end Desk
end DpllSat
