import DpllSat.Proofs.Deadline
import Mathlib.Algebra.Ring.Nat

/-! Which literals are counted as propagated. A contradiction takes the trail of its frame away,
and with it the literals that propagation had assumed there. -/
namespace DpllSat
namespace Search

open Propagation

/-- The frames that a run without a time limit takes up, in order. -/
def taken (weight : Float) (s : State) : List Frame :=
  match _hs : s.stack with
  | [] => []
  | f :: rest =>
    match _ht : (turn weight f ⟨rest, s.stats⟩).step with
    | .found _ _ => [f]
    | .more t => f :: taken weight t
termination_by stackCost s.stack
decreasing_by
  rw [_hs]
  exact stackCost_turn _ht

section Frames

variable {weight : Float} {f : Frame} {rest : List Frame} {stats : Stats}

theorem taken_nil : taken weight ⟨[], stats⟩ = [] := by rw [taken]

theorem taken_of_found {trail : List Lit} {stats' : Stats}
    (h : (turn weight f ⟨rest, stats⟩).step = .found trail stats') :
    taken weight ⟨f :: rest, stats⟩ = [f] := by
  rw [taken]
  simp only
  split <;> simp_all

theorem taken_of_more {t : State} (h : (turn weight f ⟨rest, stats⟩).step = .more t) :
    taken weight ⟨f :: rest, stats⟩ = f :: taken weight t := by
  rw [taken]
  simp only
  split <;> simp_all

theorem Turns.length_taken {s : State} {us : List Turn} {x : Step} {out : Outcome}
    (h : Turns weight s us x) (hx : x.outcome? = some out) :
    (taken weight s).length = us.length := by
  induction h with
  | nil s =>
    rcases s with ⟨_ | ⟨f, rest⟩, stats⟩
    · rw [taken_nil]
      rfl
    · cases hx
  | found ht =>
    rw [taken_of_found ht]
    rfl
  | cons ht _ ih => rw [taken_of_more ht, List.length_cons, List.length_cons, ih hx]

end Frames

namespace Frame

/-- The unit literals that propagation assumes in a frame, up to a contradiction if it meets one. -/
def applied (f : Frame) : List Lit :=
  match f.enter with
  | none => []
  | some b => (Propagation.propagate b.formula).forced

def refuted (f : Frame) : Bool := f.enter.any fun b => b.propagate.isNone

def counted (f : Frame) : Nat := if f.refuted then 0 else f.applied.length

section

variable {f : Frame} {b c : Branch}

theorem applied_of_enter (he : f.enter = some b) :
    f.applied = (Propagation.propagate b.formula).forced := by rw [applied, he]

theorem refuted_of_enter (he : f.enter = some b) : f.refuted = b.propagate.isNone := by
  rw [refuted, he, Option.any_some]

/-- Each literal that is applied is a unit clause when its turn comes, and the last formula has
no unit clause or, in a frame that is refuted, one that cannot be assumed. -/
theorem applied_spec (he : f.enter = some b) : ∃ G, UnitSteps b.formula f.applied G ∧
    if f.refuted then ∃ l, [l] ∈ G ∧ assume l G = none else ∀ l, [l] ∉ G := by
  rw [applied_of_enter he, refuted_of_enter he, Branch.propagate, Option.isNone_map]
  cases hr : (Propagation.propagate b.formula).residual? with
  | none =>
    obtain ⟨G, l, hs, hl, hn⟩ := unitSteps_of_propagate_none hr
    exact ⟨G, hs, l, hl, hn⟩
  | some G => exact ⟨G, unitSteps_of_propagate hr⟩

theorem counted_of_propagate (he : f.enter = some b) (hc : b.propagate = some c) :
    f.counted = c.trail.length - b.trail.length := by
  have hrefuted : ¬ f.refuted = true := by simp [refuted_of_enter he, hc]
  obtain ⟨G, -, rfl⟩ := Option.map_eq_some_iff.1 hc
  rw [counted, if_neg hrefuted, applied_of_enter he, List.length_append, Nat.add_sub_cancel_left]

theorem counted_of_refuted (he : f.enter = some b) (hc : b.propagate = none) : f.counted = 0 := by
  have hrefuted : f.refuted = true := by rw [refuted_of_enter he, hc]; rfl
  rw [counted, if_pos hrefuted]

theorem counted_of_refused (he : f.enter = none) : f.counted = 0 := by
  simp [counted, applied, he]

end

end Frame

section Count

variable {weight : Float} {f : Frame} {s : State} {x : Step}

theorem propagations_of_exit (h : Exit weight f s x) :
    x.stats.propagations = s.stats.propagations + f.counted := by
  have htake : (s.takeUp f).stats.propagations = s.stats.propagations :=
    congrArg (·.stats.propagations) (takeUp_eq f s.stack s.stats)
  cases h with
  | refused he => exact Frame.counted_of_refused he ▸ htake
  | refuted he hc => exact Frame.counted_of_refuted he hc ▸ htake
  | solved he hc _ => exact Frame.counted_of_propagate he hc ▸ congrArg (· + _) htake
  | stuck he hc _ _ => exact Frame.counted_of_propagate he hc ▸ congrArg (· + _) htake
  | split he hc _ _ => exact Frame.counted_of_propagate he hc ▸ congrArg (· + _) htake

theorem Turns.propagations_eq {us : List Turn} {out : Outcome} (h : Turns weight s us x)
    (hx : x.outcome? = some out) : x.stats.propagations =
      s.stats.propagations + ((taken weight s).map Frame.counted).sum := by
  induction h with
  | nil s =>
    rcases s with ⟨_ | ⟨f, rest⟩, stats⟩
    · rw [taken_nil]
      rfl
    · cases hx
  | found ht =>
    rw [propagations_of_exit (exit_of_turn ht), taken_of_found ht]
    rfl
  | @cons f rest stats t us x ht _ ih =>
    have hstep : t.stats.propagations = stats.propagations + f.counted :=
      propagations_of_exit (exit_of_turn ht)
    rw [ih hx, hstep, taken_of_more ht, List.map_cons, List.sum_cons, Nat.add_assoc]

theorem sum_counted_eq_filter (fs : List Frame) : (fs.map Frame.counted).sum =
    ((fs.filter fun f => !f.refuted).map fun f => f.applied.length).sum := by
  induction fs with
  | nil => rfl
  | cons f fs ih =>
    rw [List.map_cons, List.sum_cons, ih, Frame.counted]
    cases hf : f.refuted <;> simp [hf]

theorem sum_applied_eq (fs : List Frame) : (fs.map fun f => f.applied.length).sum =
    (fs.map Frame.counted).sum + ((fs.filter Frame.refuted).map fun f => f.applied.length).sum := by
  induction fs with
  | nil => rfl
  | cons f fs ih =>
    rw [List.map_cons, List.map_cons, List.sum_cons, List.sum_cons, ih, Frame.counted]
    cases hf : f.refuted
    · rw [List.filter_cons_of_neg (by simp [hf]), if_neg (by simp)]
      omega
    · rw [List.filter_cons_of_pos hf, List.map_cons, List.sum_cons, if_pos rfl]
      omega

/-- The count misses what was applied in the frames that were refuted. -/
theorem sum_counted_eq_iff (fs : List Frame) :
    (fs.map Frame.counted).sum = (fs.map fun f => f.applied.length).sum ↔
      ∀ f ∈ fs, f.refuted = true → f.applied = [] := by
  rw [sum_applied_eq, Nat.left_eq_add, List.sum_eq_zero_iff_forall_eq_nat, List.forall_mem_map]
  simp

end Count
end Search

open Search Solver Propagation

def Cnf.frames (weight : Float) (f : Cnf) : List Frame :=
  if f.hasEmptyClause then [] else taken weight (.start f.clauses)

theorem Cnf.solve_counts (weight : Float) (f : Cnf) :
    checks (fun _ => false) weight f = (f.frames weight).length ∧
    (f.solve weight).stats.propagations = ((f.frames weight).map Frame.counted).sum := by
  by_cases hf : [] ∈ f.clauses
  · obtain ⟨hr, hk⟩ := solveScripted_of_nil_mem (fun _ => false) weight hf
    have hframes : f.frames weight = [] := if_pos (Cnf.hasEmptyClause_iff.2 hf)
    rw [hframes, hk, Cnf.solve, hr]
    exact ⟨rfl, rfl⟩
  · have hframes : f.frames weight = taken weight (.start f.clauses) :=
      if_neg (mt Cnf.hasEmptyClause_iff.1 hf)
    obtain ⟨us, x, out, hus, hx⟩ := exists_turns weight f.clauses
    obtain ⟨hr, hk⟩ := solveScripted_of_run _ hf
      (run_of_not_expired (fun _ => false) hus hx (.opened weight f) fun _ _ => rfl)
    rw [hframes, Cnf.solve, hr, hk, hus.length_taken hx, ← Step.stats_of_outcome? hx,
      hus.propagations_eq hx]
    exact ⟨by simp [Watched.after], Nat.zero_add _⟩

/-- Without a time limit, the literals that are counted as propagated are those that were applied
in the frames that propagation has not refuted. So the count is short of the literals that were
applied just when some were applied in a frame before the contradiction there. -/
theorem propagations_count_unrefuted (weight : Float) (f : Cnf) :
    checks (fun _ => false) weight f = (f.frames weight).length ∧
    (∀ g ∈ f.frames weight, ∀ b, g.enter = some b → ∃ G, UnitSteps b.formula g.applied G ∧
      if g.refuted then ∃ l, [l] ∈ G ∧ assume l G = none else ∀ l, [l] ∉ G) ∧
    (f.solve weight).stats.propagations =
      (((f.frames weight).filter fun g => !g.refuted).map fun g => g.applied.length).sum ∧
    ((f.solve weight).stats.propagations =
        ((f.frames weight).map fun g => g.applied.length).sum ↔
      ∀ g ∈ f.frames weight, g.refuted = true → g.applied = []) := by
  obtain ⟨hchecks, hcount⟩ := f.solve_counts weight
  refine ⟨hchecks, fun g _ b he => Frame.applied_spec he, ?_, ?_⟩
  · rw [hcount, sum_counted_eq_filter]
  · rw [hcount, sum_counted_eq_iff]

def clash : Formula := [[1], [-1, 2], [-1, -2]].map (List.filterMap Lit.ofDimacs?)

theorem propagate_clash : ∃ l, Propagation.propagate clash = ⟨[l], none⟩ := by
  let one : Lit := ⟨⟨1, by decide, by decide⟩, true⟩
  let two : Lit := ⟨⟨2, by decide, by decide⟩, true⟩
  have hfirst : unit? clash = some one := by decide
  have hone : assume one clash = some [[two], [two.neg]] := by decide
  have hsecond : unit? [[two], [two.neg]] = some two := rfl
  have htwo : assume two [[two], [two.neg]] = none := by decide
  refine ⟨one, ?_⟩
  simp only [propagate_of_unit? hfirst, hone, propagate_of_unit? hsecond, htwo]

/-- The literal that is applied here is not counted. -/
theorem propagations_clash :
    (Cnf.solve defaultWeight ⟨2, clash⟩).stats.propagations = 0 ∧
    ((Cnf.frames defaultWeight ⟨2, clash⟩).map fun g => g.applied.length).sum = 1 := by
  obtain ⟨l, hl⟩ := propagate_clash
  have hnone : Branch.propagate ⟨clash, []⟩ = none := by rw [Branch.propagate, hl]; rfl
  have happlied : Frame.applied ⟨⟨clash, []⟩, none⟩ = [l] := by
    rw [Frame.applied_of_enter rfl, hl]
  have hturn : (turn defaultWeight ⟨⟨clash, []⟩, none⟩ ⟨[], .zero⟩).step =
      .more ⟨[], ⟨0, 0, 1, 0⟩⟩ :=
    Exit.turn_step (.refuted rfl hnone)
  have hframes : Cnf.frames defaultWeight ⟨2, clash⟩ = [⟨⟨clash, []⟩, none⟩] := by
    rw [Cnf.frames, if_neg (by decide), State.start, taken_of_more hturn, taken_nil]
  constructor
  · rw [(Cnf.solve_counts _ _).2, hframes, List.map_cons, Frame.counted_of_refuted rfl hnone]
    rfl
  · rw [hframes, List.map_cons, List.map_nil, happlied]
    rfl

end DpllSat
