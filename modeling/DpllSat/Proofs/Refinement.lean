import DpllSat.Proofs.Search.Ending
import DpllSat.Proofs.Search.Recursion
import DpllSat.Solver

/-! The search under a scripted monitor, turn by turn, and its equivalence to the recursive
procedure: the same trail, the same counters and the same decisions in the same order. -/
namespace DpllSat
namespace Solver

open Search

def Watched.after (w : Watched) (us : List Turn) : Watched :=
  ⟨w.checks + us.length, w.events ++ (us.flatMap Turn.events).toArray⟩

theorem Watched.after_nil (w : Watched) : w.after [] = w := by
  simp [after]

variable (expired : Nat → Bool)

def resume (weight : Float) : Step → Watched → Id (Search.Outcome × Watched)
  | .found trail stats, w => pure (⟨.model trail, stats⟩, w)
  | .more t, w => (run (scripted expired) weight t).run w

theorem forM_record (es : List Event) (w : Watched) :
    (es.forM (scripted expired).record).run w = pure ((), ⟨w.checks, w.events ++ es.toArray⟩) := by
  induction es generalizing w with
  | nil =>
    show (pure ((), w) : Id _) = _
    simp
  | cons e es ih =>
    show (es.forM (scripted expired).record).run ⟨w.checks, w.events.push e⟩ = _
    rw [ih]
    simp

theorem run_scripted_cons (weight : Float) (f : Frame) (rest : List Frame) (stats : Stats)
    (w : Watched) (hw : expired w.checks = false) :
    (run (scripted expired) weight ⟨f :: rest, stats⟩).run w =
      resume expired weight (turn weight f ⟨rest, stats⟩).step
        (w.after [turn weight f ⟨rest, stats⟩]) := by
  have he : (scripted expired).expired.run w = pure (false, ⟨w.checks + 1, w.events⟩) := by
    rw [← hw]
    rfl
  have ha : w.after [turn weight f ⟨rest, stats⟩] =
      ⟨w.checks + 1, w.events ++ (turn weight f ⟨rest, stats⟩).events.toArray⟩ := by
    simp [Watched.after]
  rw [run_cons, StateT.run_bind, he, pure_bind]
  simp only [Bool.false_eq_true, ite_false]
  rw [StateT.run_bind, forM_record, pure_bind, ha]
  cases (turn weight f ⟨rest, stats⟩).step with
  | found trail stats' => rfl
  | more t => rfl

theorem run_turns {weight : Float} {s : State} {us : List Turn} {x : Step}
    (h : Turns weight s us x) (w : Watched)
    (hw : ∀ n, w.checks ≤ n → n < w.checks + us.length → expired n = false) :
    (run (scripted expired) weight s).run w = resume expired weight x (w.after us) := by
  induction h generalizing w with
  | nil s =>
    rw [Watched.after_nil]
    rfl
  | found ht =>
    rw [run_scripted_cons expired weight _ _ _ w (hw _ (Nat.le_refl _) (by simp)), ht]
  | @cons f rest stats t us x ht _ ih =>
    rw [List.length_cons] at hw
    have hn : ∀ n, (w.after [turn weight f ⟨rest, stats⟩]).checks ≤ n →
        n < (w.after [turn weight f ⟨rest, stats⟩]).checks + us.length → expired n = false := by
      intro n h1 h2
      simp only [Watched.after, List.length_singleton] at h1 h2
      exact hw n (by omega) (by omega)
    rw [run_scripted_cons expired weight _ _ _ w (hw _ (Nat.le_refl _) (by omega)), ht]
    show (run (scripted expired) weight t).run _ = _
    rw [ih _ hn]
    simp [Watched.after, Nat.add_comm, Nat.add_left_comm]

/-- With nothing below it on the stack, a visit settles the run. -/
theorem resume_stepOf (weight : Float) (stats : Stats) (r : Visit) (w : Watched) :
    resume expired weight (stepOf [] stats r) w =
      (⟨match r.trail? with
        | some trail => .model trail
        | none => .exhausted, stats.visited 0 r⟩, w) := by
  cases ht : r.trail? with
  | some trail =>
    rw [stepOf_of_some ht]
    rfl
  | none =>
    rw [stepOf_of_none ht]
    show (run (scripted expired) weight ⟨[], stats.visited 0 r⟩).run w = _
    rw [run_nil]
    rfl

end Solver

open Search Solver

theorem foldl_max_add_two (ns : List Nat) (m : Nat) :
    ns.foldl (fun k n => max k (0 + n + 2)) (m + 2) = ns.foldl max m + 2 := by
  induction ns generalizing m with
  | nil => rfl
  | cons n ns ih =>
    have hm : max (m + 2) (0 + n + 2) = max m n + 2 := by omega
    rw [List.foldl_cons, List.foldl_cons, hm, ih]

theorem maxDepth_visited (r : Visit) :
    (Stats.zero.visited 0 r).maxDepth = (r.branchings.max?.map (· + 2)).getD 0 := by
  show r.branchings.foldl (fun k n => max k (0 + n + 2)) 0 = _
  cases r.branchings with
  | nil => rfl
  | cons n ns =>
    have hn : max 0 (0 + n + 2) = n + 2 := by omega
    rw [List.foldl_cons, hn, foldl_max_add_two, List.max?_cons']
    rfl

/-- The search with its stack does what the recursive procedure does. Its greatest depth is
zero without a branching, and else two more than the most true edges above one. -/
theorem search_refines_recursion (weight : Float) (F : Formula) :
    let r := visit weight ⟨F, []⟩ none
    let out := (Search.run (scripted fun _ => false) weight (.start F)).run ⟨0, #[]⟩
    out.1.verdict = (match r.trail? with
      | some trail => .model trail
      | none => .exhausted) ∧
    out.1.stats.decisions = r.decisions.length ∧
    out.1.stats.propagations = r.propagations ∧
    out.1.stats.conflicts = r.conflicts ∧
    out.2.events.toList.filterMap Event.decision? = r.decisions ∧
    out.1.stats.maxDepth = (r.branchings.max?.map (· + 2)).getD 0 := by
  intro r out
  obtain ⟨us, hus, hut⟩ := visit_turns weight ⟨F, []⟩ none [] .zero
  have hout : out =
      resume (fun _ => false) weight (stepOf [] .zero r) (Watched.after ⟨0, #[]⟩ us) :=
    run_turns _ hus _ fun _ _ _ => rfl
  rw [hout, resume_stepOf]
  refine ⟨rfl, ?_, ?_, ?_, ?_, maxDepth_visited r⟩
  · exact Nat.zero_add _
  · exact Nat.zero_add _
  · exact Nat.zero_add _
  · rw [← hut]
    simp [Watched.after, tried, List.filterMap_flatMap]

end DpllSat
