import DpllSat.Proofs.Deadline
import DpllSat.Proofs.Search.Variables
import DpllSat.Proofs.Verdict

/-! The height of the stack of a search. The higher a frame stands on it, the fewer variables
are left to the frame, so there is at most one frame more than there are variables. -/
namespace DpllSat
namespace Search

/-- A frame with `k` others below it has at most `n - k` variables left, and at most as many
literals on its trail as the others of the `n` variables. -/
def Bounded (n : Nat) : List Frame → Prop
  | [] => True
  | f :: rest => rest.length + f.left ≤ n ∧ f.depth + f.left ≤ n ∧ Bounded n rest

namespace Bounded

variable {n : Nat} {stack : List Frame}

theorem length_le (h : Bounded n stack) : stack.length ≤ n + 1 := by
  cases stack with
  | nil => exact Nat.zero_le _
  | cons f rest => exact Nat.succ_le_succ (Nat.le_trans (Nat.le_add_right _ _) h.1)

theorem trail_length_le (h : Bounded n stack) : ∀ f ∈ stack, f.branch.trail.length ≤ n := by
  induction stack with
  | nil => simp
  | cons f rest ih =>
    obtain ⟨-, hf, hrest⟩ := h
    rw [List.forall_mem_cons]
    refine ⟨?_, ih hrest⟩
    rw [Frame.depth] at hf
    omega

end Bounded

variable {weight : Float} {F : Formula} {f : Frame} {s t : State} {x : Step} {n : Nat}

theorem bounded_start (F : Formula) : Bounded (varsOf F).card (State.start F).stack := by
  simp [State.start, Bounded, Frame.left, Frame.depth]

/-- The halves of a split have one variable less than their frame, and the upper one stands
where it has one frame more below it. -/
theorem bounded_of_exit (hs : Bounded n (f :: s.stack)) (h : Exit weight f s (.more t)) :
    Bounded n t.stack := by
  obtain ⟨hheight, hdepth, hrest⟩ := hs
  rcases h.conflict_or_split with ⟨hstack, -⟩ | ⟨b, c, v, he, hc, -, hv, hstack, -⟩
  · rw [hstack]
    exact hrest
  · have ho := Branching.occurs_of_pick hv
    have htrue := Frame.left_lt_of_split he hc ho true
    have hfalse := Frame.left_lt_of_split he hc ho false
    have htrue' := Frame.depth_add_left_of_split he hc ho true
    have hfalse' := Frame.depth_add_left_of_split he hc ho false
    rw [hstack]
    refine ⟨?_, by omega, ?_, by omega, hrest⟩
    · rw [List.length_cons]
      omega
    · omega

theorem maxDepth_of_exit (h : Exit weight f s x) :
    x.stats.maxDepth = s.stats.maxDepth ∨
      ∃ t, x = .more t ∧ t.stats.maxDepth = max s.stats.maxDepth t.stack.length := by
  have htake : (s.takeUp f).stats.maxDepth = s.stats.maxDepth :=
    congrArg (·.stats.maxDepth) (takeUp_eq f s.stack s.stats)
  cases h with
  | refused _ => exact Or.inl htake
  | refuted _ _ => exact Or.inl htake
  | solved _ _ _ => exact Or.inl htake
  | stuck _ _ _ _ => exact Or.inl htake
  | split _ _ _ _ =>
    refine Or.inr ⟨_, rfl, ?_⟩
    rw [← htake]
    rfl

theorem bounded_of_reachable (h : Reachable weight F s) :
    Bounded (varsOf F).card s.stack ∧ s.stats.maxDepth ≤ (varsOf F).card + 1 := by
  refine h.invariant (P := fun s => Bounded (varsOf F).card s.stack ∧
    s.stats.maxDepth ≤ (varsOf F).card + 1) ⟨bounded_start F, Nat.zero_le _⟩ ?_
  rintro f rest stats t ⟨hs, hd⟩ ht
  have hb := bounded_of_exit hs ht
  refine ⟨hb, ?_⟩
  rcases maxDepth_of_exit ht with he | ⟨u, hu, he⟩
  · exact he ▸ hd
  · cases hu
    rw [he]
    exact Nat.max_le.2 ⟨hd, hb.length_le⟩

theorem Ends.maxDepth_le {late : Prop} {out : Outcome} (h : Ends weight F late out) :
    out.stats.maxDepth ≤ (varsOf F).card + 1 := by
  cases h with
  | exhausted hr => exact (bounded_of_reachable hr).2
  | timedOut _ hr => exact (bounded_of_reachable hr).2
  | found hr he =>
    rcases maxDepth_of_exit he with hd | ⟨t, ht, -⟩
    · exact hd ▸ (bounded_of_reachable hr).2
    · cases ht

end Search

open Search Solver

/-- In a search on `n` variables the stack never holds more than `n + 1` frames, and no trail on
it has more than `n` literals. So the greatest depth that is reported is at most `n + 1`, however
the time runs out. -/
theorem stack_within_variables (weight : Float) (f : Cnf) :
    (∀ s, Reachable weight f.clauses s →
      s.stack.length ≤ (varsOf f.clauses).card + 1 ∧
      s.stats.maxDepth ≤ (varsOf f.clauses).card + 1 ∧
      ∀ g ∈ s.stack, g.branch.trail.length ≤ (varsOf f.clauses).card) ∧
    ∀ expired, (solveScripted expired weight f).1.stats.maxDepth ≤
      (varsOf f.clauses).card + 1 := by
  constructor
  · intro s hs
    obtain ⟨hb, hd⟩ := bounded_of_reachable hs
    exact ⟨hb.length_le, hd, hb.trail_length_le⟩
  · intro expired
    obtain ⟨out, hr, ⟨-, ho⟩ | ⟨-, ho⟩⟩ :=
      ends_of_canReturn_solveUnder (canReturn_solveScripted expired weight f)
    · simp [hr, ho, Stats.zero]
    · rw [hr]
      exact ho.maxDepth_le

theorem stack_within_variables_branching :
    (varsOf branching).card = 3 ∧
    (∃ s, Reachable defaultWeight branching s ∧ s.stack.length = 2 ∧ s.stack.length ≤ 3 + 1 ∧
      s.stats.maxDepth ≤ 3 + 1 ∧ ∀ g ∈ s.stack, g.branch.trail.length ≤ 3) ∧
    (solveScripted (· == 1) defaultWeight ⟨4, branching⟩).1.stats.maxDepth ≤ 3 + 1 := by
  have hn : (varsOf branching).card = 3 := by decide
  obtain ⟨v, s, he, hs⟩ := exists_split_branching defaultWeight
  obtain ⟨hstack, hdepth⟩ := stack_within_variables defaultWeight ⟨4, branching⟩
  have hr := (Reachable.start (F := branching)).next he
  rw [hn] at hstack hdepth
  exact ⟨hn, ⟨s, hr, by rw [hs]; rfl, hstack s hr⟩, hdepth _⟩

end DpllSat
