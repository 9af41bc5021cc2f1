import DpllSat.FileError

/-! What can be wrong with a DIMACS text. All but a failure to read name a line,
counted from one. -/
namespace DpllSat
namespace Dimacs

inductive HeaderFault
  | shape
  | format
  | variableCount
  | variableRange
  | clauseCount
  deriving DecidableEq

def HeaderFault.reason : HeaderFault → String
  | shape => "expected: p cnf <vars> <clauses>"
  | format => "only the cnf format is supported"
  | variableCount => "variable count is not a non-negative integer"
  | variableRange => "variable count does not fit a literal"
  | clauseCount => "clause count is not a non-negative integer"

inductive ReadError
  | file (cause : FileError)
  | missingHeader (line : Nat)
  | duplicateHeader (line : Nat)
  | badHeader (line : Nat) (fault : HeaderFault)
  | badLiteral (line : Nat) (token : List Char)
  | missingTerminator (line : Nat)
  | zeroInsideClause (line : Nat)
  deriving DecidableEq

namespace ReadError

def message : ReadError → String
  | file _ => "failed to read dimacs input"
  | missingHeader line => s!"line {line}: expected the `p cnf` header first"
  | duplicateHeader line => s!"line {line}: second `p` header"
  | badHeader line fault => s!"line {line}: invalid header ({fault.reason})"
  | badLiteral line token => s!"line {line}: invalid literal `{String.ofList token}`"
  | missingTerminator line => s!"line {line}: clause is not terminated by 0"
  | zeroInsideClause line => s!"line {line}: literal 0 before the end of the clause"

/-- The error below this one, if it only wraps another. -/
def cause? : ReadError → Option FileError
  | file cause => some cause
  | _ => none

end ReadError
end Dimacs
end DpllSat
