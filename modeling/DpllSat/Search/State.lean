import DpllSat.Propagation

/-! The state of a depth-first search: a stack of pending frames and the counters. -/
namespace DpllSat

/-- How often each thing happened. No run gets far enough to fill a 64-bit counter, so these do
not wrap around. -/
structure Stats where
  decisions : Nat
  propagations : Nat
  conflicts : Nat
  maxDepth : Nat
  deriving DecidableEq

def Stats.zero : Stats := ⟨0, 0, 0, 0⟩

inductive Event
  | started (numVars numClauses : Nat) (weight : Float)
  | decided (l : Lit) (depth : Nat)
  | decisionConflict (l : Lit)
  | propagationConflict
  | deadlineReached (decisions : Nat)
  | finished (sat : Bool) (stats : Stats)

namespace Search

/-- A pending branch, with the literal to assume first; the root has none. -/
structure Frame where
  branch : Branch
  decision? : Option Lit
  deriving DecidableEq

structure State where
  stack : List Frame
  stats : Stats
  deriving DecidableEq

namespace State

def start (F : Formula) : State := ⟨[⟨⟨F, []⟩, none⟩], .zero⟩

def takeUp (s : State) (f : Frame) : State :=
  if f.decision?.isSome then
    { s with stats := { s.stats with decisions := s.stats.decisions + 1 } }
  else s

def conflict (s : State) : State :=
  { s with stats := { s.stats with conflicts := s.stats.conflicts + 1 } }

def propagated (s : State) (n : Nat) : State :=
  { s with stats := { s.stats with propagations := s.stats.propagations + n } }

/-- Both values of `v` become pending on the same branch, the true one on top. -/
def split (s : State) (b : Branch) (v : Var) : State :=
  let stack := ⟨b, some ⟨v, true⟩⟩ :: ⟨b, some ⟨v, false⟩⟩ :: s.stack
  ⟨stack, { s.stats with maxDepth := max s.stats.maxDepth stack.length }⟩

end State

end Search
end DpllSat
