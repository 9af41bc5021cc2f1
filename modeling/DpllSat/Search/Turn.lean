import DpllSat.Branching
import DpllSat.Search.State

/-! One turn of the search. The frame taken up ends in a conflict, in a model or in two new
frames, and says what happened. -/
namespace DpllSat
namespace Search

inductive Step
  | found (trail : List Lit) (stats : Stats)
  | more (s : State)

structure Turn where
  events : List Event
  step : Step

def explore (weight : Float) (b : Branch) (s : State) : Turn :=
  match b.propagate with
  | none => ⟨[.propagationConflict], .more s.conflict⟩
  | some c =>
    let s := s.propagated (c.trail.length - b.trail.length)
    if c.formula.isEmpty then ⟨[], .found c.trail s.stats⟩
    else match Branching.pick weight c.formula with
      | none => ⟨[], .more s.conflict⟩
      | some v => ⟨[], .more (s.split c v)⟩

/-- One turn: the frame `f` has been taken off the stack of `s`. -/
def turn (weight : Float) (f : Frame) (s : State) : Turn :=
  let s := s.takeUp f
  match f.decision? with
  | none => explore weight f.branch s
  | some l =>
    let decided := Event.decided l f.branch.trail.length
    match f.branch.assume l with
    | none => ⟨[decided, .decisionConflict l], .more s.conflict⟩
    | some b =>
      let t := explore weight b s
      ⟨decided :: t.events, t.step⟩

end Search
end DpllSat
