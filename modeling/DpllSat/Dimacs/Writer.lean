import DpllSat.Cnf

/-! The DIMACS writer: the header with both counts, then every clause on a line of its own,
its literals each followed by a blank and the line by a zero. -/
namespace DpllSat
namespace Dimacs

def headerLine (numVars numClauses : Nat) : List Char :=
  'p' :: ' ' :: 'c' :: 'n' :: 'f' :: ' ' :: (Nat.toDigits 10 numVars ++
    ' ' :: Nat.toDigits 10 numClauses)

def clauseLine (c : Clause) : List Char := c.flatMap (fun l => l.text ++ [' ']) ++ ['0']

def linesOf (f : Cnf) : List (List Char) :=
  headerLine f.numVars f.clauses.length :: f.clauses.map clauseLine

/-- Each line with the line feed that ends it. -/
def unlines (ls : List (List Char)) : String := String.ofList (ls.flatMap (· ++ ['\n']))

end Dimacs

def Cnf.toDimacs (f : Cnf) : String := Dimacs.unlines (Dimacs.linesOf f)

end DpllSat
