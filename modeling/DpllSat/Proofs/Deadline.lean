import DpllSat.Proofs.Completion
import DpllSat.Proofs.Refinement
import DpllSat.Proofs.Search.Frames
import Mathlib.Data.Nat.Find

/-! What a time limit can do to an answer. A run that is cut short has made the first turns of
the full run, and every turn only adds to the counters. -/
namespace DpllSat

structure Stats.Le (s t : Stats) : Prop where
  decisions : s.decisions ≤ t.decisions
  propagations : s.propagations ≤ t.propagations
  conflicts : s.conflicts ≤ t.conflicts
  maxDepth : s.maxDepth ≤ t.maxDepth

namespace Stats.Le

theorem refl (s : Stats) : s.Le s := ⟨Nat.le_refl _, Nat.le_refl _, Nat.le_refl _, Nat.le_refl _⟩

theorem trans {s t u : Stats} (h : s.Le t) (h' : t.Le u) : s.Le u :=
  ⟨Nat.le_trans h.decisions h'.decisions, Nat.le_trans h.propagations h'.propagations,
    Nat.le_trans h.conflicts h'.conflicts, Nat.le_trans h.maxDepth h'.maxDepth⟩

end Stats.Le

namespace Search

theorem State.le_takeUp (s : State) (f : Frame) : s.stats.Le (s.takeUp f).stats := by
  unfold takeUp
  split
  · exact ⟨Nat.le_succ _, Nat.le_refl _, Nat.le_refl _, Nat.le_refl _⟩
  · exact .refl _

theorem State.le_conflict (s : State) : s.stats.Le s.conflict.stats :=
  ⟨Nat.le_refl _, Nat.le_refl _, Nat.le_succ _, Nat.le_refl _⟩

theorem State.le_propagated (s : State) (n : Nat) : s.stats.Le (s.propagated n).stats :=
  ⟨Nat.le_refl _, Nat.le_add_right _ _, Nat.le_refl _, Nat.le_refl _⟩

theorem State.le_split (s : State) (b : Branch) (v : Var) : s.stats.Le (s.split b v).stats :=
  ⟨Nat.le_refl _, Nat.le_refl _, Nat.le_refl _, Nat.le_max_left _ _⟩

def Step.stats : Step → Stats
  | .found _ stats => stats
  | .more s => s.stats

variable {weight : Float}

theorem stats_le_of_exit {f : Frame} {s : State} {x : Step} (h : Exit weight f s x) :
    s.stats.Le x.stats := by
  refine (s.le_takeUp f).trans ?_
  cases h with
  | refused _ => exact State.le_conflict _
  | refuted _ _ => exact State.le_conflict _
  | solved _ _ _ => exact State.le_propagated _ _
  | stuck _ _ _ _ => exact (State.le_propagated _ _).trans (State.le_conflict _)
  | split _ _ _ _ => exact (State.le_propagated _ _).trans (State.le_split _ _ _)

namespace Turns

variable {s : State} {us : List Turn} {x : Step}

theorem stats_le (h : Turns weight s us x) : s.stats.Le x.stats := by
  induction h with
  | nil s => exact .refl _
  | @found f rest stats _ _ ht => exact stats_le_of_exit (s := ⟨rest, stats⟩) (exit_of_turn ht)
  | @cons f rest stats _ _ _ ht _ ih =>
    exact (stats_le_of_exit (s := ⟨rest, stats⟩) (exit_of_turn ht)).trans ih

/-- A run can be cut before any of its turns. There is a frame to take up, and the rest of the
run starts from there. -/
theorem cut (h : Turns weight s us x) {n : Nat} (hn : n < us.length) :
    ∃ f rest stats, Turns weight s (us.take n) (.more ⟨f :: rest, stats⟩) ∧
      Turns weight ⟨f :: rest, stats⟩ (us.drop n) x := by
  induction h generalizing n with
  | nil s => exact absurd hn (Nat.not_lt_zero n)
  | found ht =>
    have h0 : n = 0 := Nat.lt_one_iff.1 hn
    subst h0
    exact ⟨_, _, _, .nil _, .found ht⟩
  | cons ht hu ih =>
    cases n with
    | zero => exact ⟨_, _, _, .nil _, .cons ht hu⟩
    | succ n =>
      obtain ⟨f, rest, stats, h1, h2⟩ := ih (Nat.lt_of_succ_lt_succ hn)
      exact ⟨f, rest, stats, .cons ht h1, h2⟩

end Turns

def Step.outcome? : Step → Option Outcome
  | .found trail stats => some ⟨.model trail, stats⟩
  | .more ⟨[], stats⟩ => some ⟨.exhausted, stats⟩
  | .more ⟨_ :: _, _⟩ => none

theorem Step.stats_of_outcome? {x : Step} {out : Outcome} (h : x.outcome? = some out) :
    x.stats = out.stats := by
  rcases x with ⟨trail, stats⟩ | ⟨_ | ⟨f, rest⟩, stats⟩ <;> cases h <;> rfl

theorem exists_turns (weight : Float) (F : Formula) :
    ∃ us x out, Turns weight (.start F) us x ∧ x.outcome? = some out := by
  obtain ⟨us, hus, -⟩ := visit_turns weight ⟨F, []⟩ none [] .zero
  cases ht : (visit weight ⟨F, []⟩ none).trail? with
  | some trail =>
    rw [stepOf_of_some ht] at hus
    exact ⟨us, _, _, hus, rfl⟩
  | none =>
    rw [stepOf_of_none ht] at hus
    exact ⟨us, _, _, hus, rfl⟩

theorem length_pos_of_outcome? {F : Formula} {us : List Turn} {x : Step} {out : Outcome}
    (h : Turns weight (.start F) us x) (hx : x.outcome? = some out) : 0 < us.length := by
  cases h with
  | nil => cases hx
  | found _ => exact Nat.succ_pos _
  | cons _ _ => exact Nat.succ_pos _

end Search

namespace Solver

open Search

variable (expired : Nat → Bool)

theorem run_of_not_expired {weight : Float} {s : State} {us : List Turn} {x : Step}
    {out : Search.Outcome} (h : Turns weight s us x) (hx : x.outcome? = some out) (w : Watched)
    (hw : ∀ n < us.length, expired (w.checks + n) = false) :
    (run (scripted expired) weight s).run w = (out, w.after us) := by
  have hr := run_turns expired h w fun n h1 h2 => by
    obtain ⟨m, rfl⟩ := Nat.exists_eq_add_of_le h1
    exact hw m (Nat.lt_of_add_lt_add_left h2)
  rw [hr]
  rcases x with ⟨trail, stats⟩ | ⟨_ | ⟨f, rest⟩, stats⟩ <;> cases hx
  · rfl
  · show (run (scripted expired) weight ⟨[], stats⟩).run _ = _
    rw [run_nil]
    rfl

theorem run_scripted_late (weight : Float) (f : Frame) (rest : List Frame) (stats : Stats)
    (w : Watched) (hw : expired w.checks = true) :
    (run (scripted expired) weight ⟨f :: rest, stats⟩).run w =
      (⟨.timedOut, stats⟩, ⟨w.checks + 1, w.events⟩) := by
  have he : (scripted expired).expired.run w = pure (true, ⟨w.checks + 1, w.events⟩) := by
    rw [← hw]
    rfl
  rw [run_cons, StateT.run_bind, he, pure_bind]
  rfl

/-- A run that is asked to stop before its `n`-th turn has made those before it. -/
theorem run_of_expired {weight : Float} {s : State} {us : List Turn} {x : Step}
    (h : Turns weight s us x) (w : Watched) {n : Nat} (hn : n < us.length)
    (hw : ∀ m < n, expired (w.checks + m) = false) (he : expired (w.checks + n) = true) :
    ∃ stats w', (run (scripted expired) weight s).run w = (⟨.timedOut, stats⟩, w') ∧
      w'.checks = w.checks + n + 1 ∧ stats.Le x.stats ∧ (n = 0 → stats = s.stats) := by
  obtain ⟨f, rest, stats, h1, h2⟩ := h.cut hn
  have hlen : (us.take n).length = n := List.length_take_of_le (Nat.le_of_lt hn)
  have hr := run_turns expired h1 w fun k hk1 hk2 => by
    obtain ⟨m, rfl⟩ := Nat.exists_eq_add_of_le hk1
    exact hw m (by omega)
  have hc : (w.after (us.take n)).checks = w.checks + n := by simp [Watched.after, hlen]
  have hl := run_scripted_late expired weight f rest stats (w.after (us.take n)) (hc ▸ he)
  refine ⟨stats, _, hr.trans hl, by rw [hc], h2.stats_le, ?_⟩
  rintro rfl
  cases h1
  rfl

/-- How often the time is asked for while `f` is solved. -/
def checks (weight : Float) (f : Cnf) : Nat :=
  ((solveUnder (scripted expired) weight f).run ⟨0, #[]⟩).2.checks

/-- What the monitor has seen when the search begins. -/
def Watched.opened (weight : Float) (f : Cnf) : Watched :=
  ⟨0, #[].push (.started f.numVars f.clauses.length weight)⟩

@[simp] theorem Watched.opened_checks (weight : Float) (f : Cnf) :
    (opened weight f).checks = 0 := rfl

theorem run_record (e : Event) (w : Watched) :
    ((scripted expired).record e).run w = pure ((), ⟨w.checks, w.events.push e⟩) := rfl

theorem solveScripted_of_run {weight : Float} {f : Cnf} (hf : [] ∉ f.clauses)
    {out : Search.Outcome} {w : Watched}
    (h : (run (scripted expired) weight (.start f.clauses)).run (.opened weight f) = (out, w)) :
    (solveScripted expired weight f).1 = ⟨resultOf f out.verdict, out.stats⟩ ∧
      checks expired weight f = w.checks := by
  have he : f.hasEmptyClause = false := by simpa using mt Cnf.hasEmptyClause_iff.1 hf
  unfold solveScripted checks solveUnder
  rw [StateT.run_bind, run_record, pure_bind]
  simp only [he, Bool.false_eq_true, ite_false]
  rw [StateT.run_bind]
  rw [Watched.opened] at h
  rw [h]
  rcases out with ⟨verdict, stats⟩
  cases verdict <;> exact ⟨rfl, rfl⟩

theorem solveScripted_of_nil_mem (weight : Float) {f : Cnf} (hf : [] ∈ f.clauses) :
    (solveScripted expired weight f).1 = ⟨.unsat, .zero⟩ ∧ checks expired weight f = 0 := by
  have he : f.hasEmptyClause = true := Cnf.hasEmptyClause_iff.2 hf
  unfold solveScripted checks solveUnder
  simp only [he, ite_true]
  exact ⟨rfl, rfl⟩

/-- How the answers to the checks can turn out. Either none that is asked for says that the
time is up, and the report is the one without a limit. Or the last one does, and the report is
what had been counted by then. -/
theorem solveScripted_cases (weight : Float) {f : Cnf} (hf : [] ∉ f.clauses) :
    ((∀ n < checks expired weight f, expired n = false) ∧ 0 < checks expired weight f ∧
      (solveScripted expired weight f).1 = f.solve weight) ∨
    ∃ n, checks expired weight f = n + 1 ∧ (∀ m < n, expired m = false) ∧ expired n = true ∧
      (solveScripted expired weight f).1.result = .unknown ∧
      (solveScripted expired weight f).1.stats.Le (f.solve weight).stats ∧
      (n = 0 → (solveScripted expired weight f).1.stats = .zero) := by
  obtain ⟨us, x, out, hus, hx⟩ := exists_turns weight f.clauses
  obtain ⟨hall, -⟩ := solveScripted_of_run _ hf
    (run_of_not_expired (fun _ => false) hus hx (.opened weight f) fun _ _ => rfl)
  have hsolve : f.solve weight = ⟨resultOf f out.verdict, out.stats⟩ := hall
  by_cases hlate : ∃ n, n < us.length ∧ expired n = true
  · right
    obtain ⟨n, ⟨hn, he⟩, hmin⟩ : ∃ n, (n < us.length ∧ expired n = true) ∧
        ∀ m < n, ¬ (m < us.length ∧ expired m = true) :=
      ⟨Nat.find hlate, Nat.find_spec hlate, fun m => Nat.find_min hlate⟩
    have hbefore : ∀ m < n, expired m = false := fun m hm =>
      Bool.eq_false_iff.2 fun h => hmin m hm ⟨Nat.lt_trans hm hn, h⟩
    obtain ⟨stats, w, hw, hc, hle, h0⟩ := run_of_expired expired hus (.opened weight f) hn
      (by simpa using hbefore) (by simpa using he)
    obtain ⟨hr, hk⟩ := solveScripted_of_run expired hf hw
    refine ⟨n, by simpa [hc] using hk, hbefore, he, by rw [hr]; rfl, ?_, ?_⟩
    · rw [hr, hsolve, ← Step.stats_of_outcome? hx]
      exact hle
    · intro hz
      rw [hr]
      exact h0 hz
  · left
    have hnone : ∀ n < us.length, expired n = false := fun n hn =>
      Bool.eq_false_iff.2 fun h => hlate ⟨n, hn, h⟩
    obtain ⟨hr, hk⟩ := solveScripted_of_run expired hf
      (run_of_not_expired expired hus hx (.opened weight f) (by simpa using hnone))
    have hlen : checks expired weight f = us.length := by simpa [Watched.after] using hk
    rw [hlen]
    exact ⟨hnone, length_pos_of_outcome? hus hx, hr.trans hsolve.symm⟩

end Solver

open Search Solver

/-- A time limit can turn an answer into `unknown`, and can do nothing else to it. If no check
that is made finds the time up, the report is the one without a limit. If one does, the answer
is `unknown`, no counter exceeds what it is without a limit, and all are zero if it was the
first check. The first check is made unless a clause is empty, and then the formula is refuted
with all counters zero. -/
theorem deadline_only_interrupts (expired : Nat → Bool) (weight : Float) (f : Cnf) :
    ((∀ n < checks expired weight f, expired n = false) →
      (solveScripted expired weight f).1 = f.solve weight) ∧
    (∀ n < checks expired weight f, expired n = true →
      (solveScripted expired weight f).1.result = .unknown ∧
      (solveScripted expired weight f).1.stats.Le (f.solve weight).stats ∧
      (n = 0 → (solveScripted expired weight f).1.stats = .zero)) ∧
    ([] ∉ f.clauses → 0 < checks expired weight f) ∧
    ([] ∈ f.clauses → (solveScripted expired weight f).1 = ⟨.unsat, .zero⟩) := by
  by_cases hf : [] ∈ f.clauses
  · obtain ⟨hr, hk⟩ := solveScripted_of_nil_mem expired weight hf
    have hs : f.solve weight = ⟨.unsat, .zero⟩ := (solveScripted_of_nil_mem _ weight hf).1
    simp [hr, hk, hs, hf]
  · rcases solveScripted_cases expired weight hf with ⟨hn, hpos, hr⟩ |
      ⟨k, hk, hbefore, hlate, hu, hle, h0⟩
    · refine ⟨fun _ => hr, fun n hlt he => ?_, fun _ => hpos, fun h => absurd h hf⟩
      simp [hn n hlt] at he
    · refine ⟨fun h => ?_, fun n hlt he => ⟨hu, hle, ?_⟩, fun _ => by omega, fun h => absurd h hf⟩
      · simp [h k (by omega)] at hlate
      · rintro rfl
        refine h0 ?_
        by_contra hne
        simp [hbefore 0 (Nat.pos_of_ne_zero hne)] at he

namespace Solver

theorem exists_turns_single (weight : Float) (f : Frame) (rest : List Frame) (stats : Stats) :
    ∃ u x, Turns weight ⟨f :: rest, stats⟩ [u] x := by
  cases ht : (turn weight f ⟨rest, stats⟩).step with
  | found trail stats' => exact ⟨_, _, .found ht⟩
  | more t => exact ⟨_, _, .cons ht (.nil t)⟩

theorem checks_branching : checks (· == 1) defaultWeight ⟨4, branching⟩ = 2 := by
  obtain ⟨v, ⟨stack, stats⟩, he, rfl⟩ := exists_split_branching defaultWeight
  obtain ⟨u, x, hu⟩ := exists_turns_single defaultWeight ⟨⟨branching, []⟩, some ⟨v, true⟩⟩ _ stats
  obtain ⟨stats, w, hw, hc, -⟩ := run_of_expired (· == 1) (.cons he.turn_step hu)
    (.opened defaultWeight ⟨4, branching⟩) (by simp : 1 < 2) (by simp) (by simp)
  exact (solveScripted_of_run (· == 1) (by decide) hw).2.trans hc

theorem checks_nil : checks (· == 1) defaultWeight ⟨4, []⟩ = 1 := by
  have hp : Branch.propagate ⟨[], []⟩ = some ⟨[], []⟩ := Branch.propagate_of_not_unit (by simp)
  have he : Exit defaultWeight ⟨⟨[], []⟩, none⟩ ⟨[], .zero⟩ _ := .solved rfl hp rfl
  have hr := run_of_not_expired (· == 1) (.found he.turn_step) rfl (.opened defaultWeight ⟨4, []⟩)
    (by simp)
  exact (solveScripted_of_run (f := ⟨4, []⟩) (· == 1) (by decide) hr).2

theorem deadline_only_interrupts_branching :
    (1 < checks (· == 1) defaultWeight ⟨4, branching⟩ ∧
      (solveScripted (· == 1) defaultWeight ⟨4, branching⟩).1.result = .unknown ∧
      (solveScripted (· == 1) defaultWeight ⟨4, branching⟩).1.stats.Le
        (Cnf.solve defaultWeight ⟨4, branching⟩).stats) ∧
    (0 < checks (fun _ => true) defaultWeight ⟨4, branching⟩ ∧
      (solveScripted (fun _ => true) defaultWeight ⟨4, branching⟩).1.stats = .zero) ∧
    (1 = checks (· == 1) defaultWeight ⟨4, []⟩ ∧
      (solveScripted (· == 1) defaultWeight ⟨4, []⟩).1 = Cnf.solve defaultWeight ⟨4, []⟩) ∧
    (solveScripted (fun _ => true) defaultWeight ⟨4, [] :: branching⟩).1 = ⟨.unsat, .zero⟩ := by
  have h1 : 1 < checks (· == 1) defaultWeight ⟨4, branching⟩ := by simp [checks_branching]
  have h2 := (deadline_only_interrupts (· == 1) defaultWeight ⟨4, branching⟩).2.1 1 h1 rfl
  obtain ⟨-, hlate, hpos, -⟩ :=
    deadline_only_interrupts (fun _ => true) defaultWeight ⟨4, branching⟩
  have h3 := hpos (by decide)
  have h4 := hlate 0 h3 rfl
  have h5 := (deadline_only_interrupts (· == 1) defaultWeight ⟨4, []⟩).1 (by simp [checks_nil])
  have h6 := (deadline_only_interrupts (fun _ => true) defaultWeight ⟨4, [] :: branching⟩).2.2.2
    (by simp)
  exact ⟨⟨h1, h2.1, h2.2.1⟩, ⟨h3, h4.2.2 rfl⟩, ⟨checks_nil.symm, h5⟩, h6⟩

end Solver
end DpllSat
