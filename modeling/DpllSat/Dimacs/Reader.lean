import DpllSat.Cnf
import DpllSat.Log
import DpllSat.Dimacs.Error
import DpllSat.Text.Blank
import DpllSat.Text.Encoding
import DpllSat.Text.Integer

/-! The DIMACS reader. A text is a header line followed by clause lines, each with all its
literals and a final zero. Blank lines and comments may stand anywhere, and a line that
starts with a percent sign ends the text. -/
namespace DpllSat
namespace Dimacs

structure Header where
  numVars : Nat
  numClauses : Nat
  deriving DecidableEq

def header? (ws : List (List Char)) : Except HeaderFault Header :=
  match ws with
  | [p, format, vars, clauses] =>
    if p ≠ ['p'] then .error .shape
    else if format ≠ ['c', 'n', 'f'] then .error .format
    else match Text.unsigned? Text.maxUnsigned32 vars with
      | none => .error .variableCount
      | some v =>
        if maxVariable < v then .error .variableRange
        else match Text.unsigned? Text.maxUnsigned64 clauses with
          | none => .error .clauseCount
          | some c => .ok ⟨v, c⟩
  | _ => .error .shape

inductive ClauseFault
  | badLiteral (token : List Char)
  | missingTerminator
  | zeroInsideClause
  deriving DecidableEq

def ClauseFault.at (line : Nat) : ClauseFault → ReadError
  | badLiteral token => .badLiteral line token
  | missingTerminator => .missingTerminator line
  | zeroInsideClause => .zeroInsideClause line

def integers? : List (List Char) → Except ClauseFault (List (Int × List Char))
  | [] => .ok []
  | w :: ws =>
    match Text.signed? Text.maxSigned64 w with
    | none => .error (.badLiteral w)
    | some n => (integers? ws).map ((n, w) :: ·)

def literals? : List (Int × List Char) → Except ClauseFault Clause
  | [] => .ok []
  | (n, w) :: vs =>
    if n = 0 then .error .zeroInsideClause
    else match Lit.ofDimacs? n with
      | none => .error (.badLiteral w)
      | some l => (literals? vs).map (l :: ·)

def clause? (ws : List (List Char)) : Except ClauseFault Clause :=
  match integers? ws with
  | .error e => .error e
  | .ok vs =>
    match vs.getLast? with
    | some (0, _) => literals? vs.dropLast
    | _ => .error .missingTerminator

/-- A line by the first character of its first word. -/
inductive Line
  | skipped
  | trailer
  | header (words : List (List Char))
  | clause (words : List (List Char))
  deriving DecidableEq

def Line.ofWords : List (List Char) → Line
  | [] => .skipped
  | w :: ws =>
    match w.head? with
    | some 'c' => .skipped
    | some '%' => .trailer
    | some 'p' => .header (w :: ws)
    | _ => .clause (w :: ws)

def Line.ofBytes? (bytes : List UInt8) : Option Line :=
  (Text.decode? bytes).map fun cs => Line.ofWords (Text.words cs)

def clausesFrom (n : Nat) : List (List UInt8) → Except ReadError Formula
  | [] => .ok []
  | bytes :: rest =>
    match Line.ofBytes? bytes with
    | none => .error (.file .notUtf8)
    | some .skipped => clausesFrom (n + 1) rest
    | some .trailer => .ok []
    | some (.header _) => .error (.duplicateHeader n)
    | some (.clause ws) =>
      match clause? ws with
      | .error e => .error (e.at n)
      | .ok c => (clausesFrom (n + 1) rest).map (c :: ·)

/-- A formula as read, with the number of clauses that its header declares. -/
structure Reading where
  cnf : Cnf
  declared : Nat
  deriving DecidableEq

def readFrom (n : Nat) : List (List UInt8) → Except ReadError Reading
  | [] => .error (.missingHeader n)
  | bytes :: rest =>
    match Line.ofBytes? bytes with
    | none => .error (.file .notUtf8)
    | some .skipped => readFrom (n + 1) rest
    | some .trailer => .error (.missingHeader (n + 1))
    | some (.clause _) => .error (.missingHeader n)
    | some (.header ws) =>
      match header? ws with
      | .error fault => .error (.badHeader n fault)
      | .ok h => (clausesFrom (n + 1) rest).map fun cs => ⟨⟨h.numVars, cs⟩, h.numClauses⟩

def read (bytes : List UInt8) : Except ReadError Reading := readFrom 1 (Text.lines bytes)

def readText (text : String) : Except ReadError Reading := read text.toUTF8.toList

/-- A clause count other than the declared one is only worth a warning. -/
def Reading.warnings (r : Reading) : List LogRecord :=
  if r.declared = r.cnf.clauses.length then []
  else [⟨.warn, s!"header declares {r.declared} clauses but {r.cnf.clauses.length} were read"⟩]

end Dimacs
end DpllSat
