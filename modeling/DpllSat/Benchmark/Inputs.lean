import DpllSat.Host

/-! The search for formula files. It goes through a directory and all that is seen to be one below
it, and gives up at the first that cannot be listed to its end. -/
namespace DpllSat
namespace Benchmark

def isFormulaName (name : List UInt8) : Bool :=
  decide (4 < name.length) && (Text.encode ".cnf".toList).isSuffixOf name

def pathLe : List Name → List Name → Bool
  | [], _ => true
  | _ :: _, [] => false
  | a :: as, b :: bs => if a < b then true else if b < a then false else pathLe as bs

variable {m : Type → Type} [Monad m] [Host m]

mutual

/-- The names that lead from a directory to the formula files below it. A path that is too long to
lead anywhere is never seen to be a directory, which bounds the depth of the search. -/
def collect (dir : Path) : m (Except FileError (List (List Name))) := do
  let listing ← Host.list dir
  match ← gather dir listing.names with
  | .error e => return .error e
  | .ok found =>
    match listing.fault? with
    | some e => return .error e
    | none => return .ok found
termination_by (Path.maxLength + 1 - dir.length, 1, 0)

def gather (dir : Path) : List Name → m (Except FileError (List (List Name)))
  | [] => return .ok []
  | name :: names => do
    match ← visit dir name with
    | .error e => return .error e
    | .ok first => return (← gather dir names).map (first ++ ·)
termination_by names => (Path.maxLength + 1 - dir.length, 0, names.length)

def visit (dir : Path) (name : Name) : m (Except FileError (List (List Name))) := do
  let entered ← Host.isDirectory (dir.child name)
  if _h : entered = true ∧ (dir.child name).length ≤ Path.maxLength then
    return (← collect (dir.child name)).map fun found => found.map (name :: ·)
  else return .ok (if isFormulaName name.bytes then [[name]] else [])
termination_by (Path.maxLength + 1 - dir.length, 0, 0)
decreasing_by
  have hlt := dir.length_lt_child name
  exact Prod.Lex.left _ _ (by omega)

end

end Benchmark
end DpllSat
