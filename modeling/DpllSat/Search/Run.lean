import DpllSat.Search.Cost

/-! The search from a state to its end, in whatever surroundings it runs. -/
namespace DpllSat
namespace Search

/-- The surroundings of a run: whether its time is up, asked once per frame, and where
its events go. -/
structure Monitor (m : Type → Type) where
  expired : m Bool
  record : Event → m Unit

inductive Verdict
  | model (trail : List Lit)
  | exhausted
  | timedOut
  deriving DecidableEq

structure Outcome where
  verdict : Verdict
  stats : Stats
  deriving DecidableEq

@[specialize] def run {m : Type → Type} [Monad m] (watch : Monitor m) (weight : Float)
    (s : State) : m Outcome :=
  match _hs : s.stack with
  | [] => pure ⟨.exhausted, s.stats⟩
  | f :: rest => do
    if ← watch.expired then
      return ⟨.timedOut, s.stats⟩
    match _ht : turn weight f ⟨rest, s.stats⟩ with
    | ⟨events, .found trail stats⟩ =>
      events.forM watch.record
      return ⟨.model trail, stats⟩
    | ⟨events, .more t⟩ =>
      events.forM watch.record
      run watch weight t
termination_by stackCost s.stack
decreasing_by
  rw [_hs]
  exact stackCost_turn (congrArg Turn.step _ht)

end Search
end DpllSat
