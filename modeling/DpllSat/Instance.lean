import DpllSat.Cnf
import DpllSat.Random.Source
import DpllSat.Valuation

/-! Random instances: clauses of one width over distinct variables with random signs,
optionally made to agree with a hidden model. -/
namespace DpllSat

inductive ShapeError
  | noLiteral
  | tooWide (width vars : Nat)
  | tooManyVariables (vars : Nat)
  deriving DecidableEq

def ShapeError.message : ShapeError → String
  | noLiteral => "clause width k must be >= 1"
  | tooWide width vars => s!"clause width k={width} exceeds variable count {vars}"
  | tooManyVariables vars => s!"variable count {vars} does not fit a literal"

/-- How many variables there are, and how many of them make a clause. -/
structure Shape where
  vars : Nat
  width : Nat
  width_pos : 0 < width
  width_le : width ≤ vars
  vars_le : vars ≤ maxVariable

namespace Shape

def of (vars width : Nat) : Except ShapeError Shape :=
  if h0 : width = 0 then .error .noLiteral
  else if h1 : vars < width then .error (.tooWide width vars)
  else if h2 : maxVariable < vars then .error (.tooManyVariables vars)
  else .ok ⟨vars, width, by omega, by omega, by omega⟩

def var (sh : Shape) (i : Fin sh.vars) : Var :=
  ⟨i + 1, by omega, by have := sh.vars_le; omega⟩

end Shape

namespace Instance

open DpllSat.Random (Source)

variable {σ : Type}

@[specialize] def drawEach {α β : Type} (f : α → σ → β × σ) (xs : List α) (s : σ) : List β × σ :=
  go xs [] s
where
  @[specialize] go : List α → List β → σ → List β × σ
    | [], done, s => (done.reverse, s)
    | x :: xs, done, s =>
      let (y, s) := f x s
      go xs (y :: done) s

variable (src : Source σ)

def drawLit (v : Var) (s : σ) : Lit × σ :=
  let (positive, s) := src.bool s
  (⟨v, positive⟩, s)

def drawClause (sh : Shape) (s : σ) : Clause × σ :=
  let (picked, s) := src.sample sh.width_pos sh.width_le s
  drawEach (drawLit src) ((picked.mergeSort fun i j => i ≤ j).map sh.var) s

/-- A clause in which, if no literal holds in the hidden model, a random one is negated. -/
def drawPlanted (sh : Shape) (hidden : Valuation) (s : σ) : Clause × σ :=
  let (c, s) := drawClause src sh s
  if c.any hidden.holds then (c, s)
  else
    let (i, s) := src.below sh.width_pos s
    (c.modify i Lit.neg, s)

def random (sh : Shape) (clauses : Nat) (seed : UInt64) : Cnf :=
  ⟨sh.vars,
    (drawEach (fun _ => drawClause src sh) (List.replicate clauses ()) (src.ofSeed seed)).1⟩

/-- An instance and the total model it was made to agree with. -/
def planted (sh : Shape) (clauses : Nat) (seed : UInt64) : Cnf × List Lit :=
  let (hidden, s) := drawEach (drawLit src) ((List.finRange sh.vars).map sh.var) (src.ofSeed seed)
  let t := Valuation.ofLits hidden
  (⟨sh.vars, (drawEach (fun _ => drawPlanted src sh t) (List.replicate clauses ()) s).1⟩, hidden)

end Instance
end DpllSat
