import DpllSat.Search.Cost

/-! All the ways in which a turn of the search can end, and runs of the search as
sequences of turns. -/
namespace DpllSat
namespace Search

def Frame.enter (f : Frame) : Option Branch :=
  match f.decision? with
  | none => some f.branch
  | some l => f.branch.assume l

namespace State

@[simp] theorem propagated_stack (s : State) (n : Nat) : (s.propagated n).stack = s.stack := rfl

@[simp] theorem split_stack (s : State) (b : Branch) (v : Var) :
    (s.split b v).stack = ⟨b, some ⟨v, true⟩⟩ :: ⟨b, some ⟨v, false⟩⟩ :: s.stack := rfl

end State

/-- How a turn on the frame `f` can end: the decision is refused, propagation is refuted,
the formula is solved, there is nothing to pick, or the branch is split. -/
inductive Exit (weight : Float) (f : Frame) (s : State) : Step → Prop
  | refused : f.enter = none → Exit weight f s (.more (s.takeUp f).conflict)
  | refuted {b : Branch} : f.enter = some b → b.propagate = none →
    Exit weight f s (.more (s.takeUp f).conflict)
  | solved {b c : Branch} : f.enter = some b → b.propagate = some c → c.formula = [] →
    Exit weight f s
      (.found c.trail ((s.takeUp f).propagated (c.trail.length - b.trail.length)).stats)
  | stuck {b c : Branch} : f.enter = some b → b.propagate = some c → c.formula ≠ [] →
    Branching.pick weight c.formula = none →
    Exit weight f s
      (.more ((s.takeUp f).propagated (c.trail.length - b.trail.length)).conflict)
  | split {b c : Branch} {v : Var} : f.enter = some b → b.propagate = some c →
    c.formula ≠ [] → Branching.pick weight c.formula = some v →
    Exit weight f s
      (.more (((s.takeUp f).propagated (c.trail.length - b.trail.length)).split c v))

theorem turn_step_of_refused {weight : Float} {f : Frame} {s : State} (he : f.enter = none) :
    (turn weight f s).step = .more (s.takeUp f).conflict := by
  unfold Frame.enter at he
  unfold turn
  cases hd : f.decision? with
  | none => simp [hd] at he
  | some l =>
    have ha : f.branch.assume l = none := by simpa [hd] using he
    simp [ha]

theorem turn_step_of_enter {weight : Float} {f : Frame} {s : State} {b : Branch}
    (he : f.enter = some b) : (turn weight f s).step = (explore weight b (s.takeUp f)).step := by
  unfold Frame.enter at he
  unfold turn
  cases hd : f.decision? with
  | none =>
    have hb : f.branch = b := by simpa [hd] using he
    rw [hb]
  | some l =>
    have ha : f.branch.assume l = some b := by simpa [hd] using he
    simp [ha]

theorem turn_exit (weight : Float) (f : Frame) (s : State) :
    Exit weight f s (turn weight f s).step := by
  cases he : f.enter with
  | none =>
    rw [turn_step_of_refused he]
    exact .refused he
  | some b =>
    rw [turn_step_of_enter he]
    unfold explore
    cases hp : b.propagate with
    | none => exact .refuted he hp
    | some c =>
      by_cases hc : c.formula = []
      · simpa [hc] using Exit.solved he hp hc
      · cases hv : Branching.pick weight c.formula with
        | none => simpa [hc, hv] using Exit.stuck he hp hc hv
        | some v => simpa [hc, hv] using Exit.split he hp hc hv

theorem exit_of_turn {weight : Float} {f : Frame} {s : State} {step : Step}
    (h : (turn weight f s).step = step) : Exit weight f s step := h ▸ turn_exit weight f s

theorem Exit.turn_step {weight : Float} {f : Frame} {s : State} {step : Step}
    (h : Exit weight f s step) : (turn weight f s).step = step := by
  cases h with
  | refused he => exact turn_step_of_refused he
  | refuted he hp => simp [turn_step_of_enter he, explore, hp]
  | solved he hp hc => simp [turn_step_of_enter he, explore, hp, hc]
  | stuck he hp hc hv => simp [turn_step_of_enter he, explore, hp, hc, hv]
  | split he hp hc hv => simp [turn_step_of_enter he, explore, hp, hc, hv]

theorem takeUp_eq (f : Frame) (rest : List Frame) (stats : Stats) :
    State.takeUp ⟨rest, stats⟩ f =
      ⟨rest, { stats with decisions := stats.decisions + f.decision?.toList.length }⟩ := by
  unfold State.takeUp
  cases f.decision? <;> rfl

/-- A turn after which the search goes on has either met a conflict, and then the stack is what
was below its frame, or has split the frame and leaves both halves on top of that. -/
theorem Exit.conflict_or_split {weight : Float} {f : Frame} {s t : State}
    (h : Exit weight f s (.more t)) :
    (t.stack = s.stack ∧ t.stats.conflicts = s.stats.conflicts + 1 ∧
      t.stats.maxDepth = s.stats.maxDepth) ∨
    ∃ b c v, f.enter = some b ∧ b.propagate = some c ∧ c.formula ≠ [] ∧
      Branching.pick weight c.formula = some v ∧
      t.stack = ⟨c, some ⟨v, true⟩⟩ :: ⟨c, some ⟨v, false⟩⟩ :: s.stack ∧
      t.stats.conflicts = s.stats.conflicts ∧
      t.stats.maxDepth = max s.stats.maxDepth t.stack.length := by
  obtain ⟨rest, stats⟩ := s
  cases h with
  | refused _ => simp [takeUp_eq, State.conflict]
  | refuted _ _ => simp [takeUp_eq, State.conflict]
  | stuck _ _ _ _ => simp [takeUp_eq, State.conflict, State.propagated]
  | @split b c v he hc hn hv =>
    refine Or.inr ⟨b, c, v, he, hc, hn, hv, ?_⟩
    simp [takeUp_eq, State.split, State.propagated]

/-- The turns `us` lead from a state to another one, or to a model. -/
inductive Turns (weight : Float) : State → List Turn → Step → Prop
  | nil (s : State) : Turns weight s [] (.more s)
  | found {f : Frame} {rest : List Frame} {stats stats' : Stats} {trail : List Lit} :
    (turn weight f ⟨rest, stats⟩).step = .found trail stats' →
    Turns weight ⟨f :: rest, stats⟩ [turn weight f ⟨rest, stats⟩] (.found trail stats')
  | cons {f : Frame} {rest : List Frame} {stats : Stats} {t : State} {us : List Turn}
    {x : Step} :
    (turn weight f ⟨rest, stats⟩).step = .more t → Turns weight t us x →
    Turns weight ⟨f :: rest, stats⟩ (turn weight f ⟨rest, stats⟩ :: us) x

namespace Turns

variable {weight : Float} {s t : State} {us vs : List Turn} {x : Step}

theorem append (h : Turns weight s us (.more t)) (h' : Turns weight t vs x) :
    Turns weight s (us ++ vs) x := by
  generalize hy : Step.more t = y at h
  induction h with
  | nil s =>
    cases hy
    exact h'
  | found _ => cases hy
  | cons hs _ ih => exact .cons hs (ih hy)

theorem invariant {P : State → Prop}
    (hP : ∀ f rest stats t, P ⟨f :: rest, stats⟩ → Exit weight f ⟨rest, stats⟩ (.more t) → P t)
    (h : Turns weight s us (.more t)) (hs : P s) : P t := by
  generalize hy : Step.more t = y at h
  induction h with
  | nil s =>
    cases hy
    exact hs
  | found _ => cases hy
  | @cons f rest stats u us y ht _ ih =>
    exact ih (hP f rest stats u hs (exit_of_turn ht)) hy

end Turns

/-- The states in which the search on `F` looks at its stack. -/
def Reachable (weight : Float) (F : Formula) (s : State) : Prop :=
  ∃ us, Turns weight (.start F) us (.more s)

namespace Reachable

variable {weight : Float} {F : Formula}

theorem start : Reachable weight F (.start F) := ⟨[], .nil _⟩

theorem next {f : Frame} {rest : List Frame} {stats : Stats} {t : State}
    (h : Reachable weight F ⟨f :: rest, stats⟩) (ht : Exit weight f ⟨rest, stats⟩ (.more t)) :
    Reachable weight F t := by
  obtain ⟨us, hus⟩ := h
  exact ⟨us ++ [_], hus.append (.cons ht.turn_step (.nil t))⟩

theorem invariant {P : State → Prop} (h0 : P (.start F))
    (hP : ∀ f rest stats t, P ⟨f :: rest, stats⟩ → Exit weight f ⟨rest, stats⟩ (.more t) → P t)
    {s : State} (h : Reachable weight F s) : P s := by
  obtain ⟨us, hus⟩ := h
  exact hus.invariant hP h0

end Reachable

end Search
end DpllSat
