import DpllSat.Proofs.Search.Ending
import DpllSat.Solver

/-! Searches in two surroundings. If these answer alike whether the time is up, the searches end
alike. -/
namespace DpllSat

/-- From related states two actions return the same and end in related states. -/
def Agree {σ τ α : Type} (R : σ → τ → Prop) (x : StateM σ α) (y : StateM τ α) : Prop :=
  ∀ s t, R s t → (x.run s).1 = (y.run t).1 ∧ R (x.run s).2 (y.run t).2

namespace Agree

variable {σ τ α β : Type} {R : σ → τ → Prop}

theorem pure (a : α) : Agree R (Pure.pure a) (Pure.pure a) := fun _ _ h => ⟨rfl, h⟩

theorem bind {x : StateM σ α} {y : StateM τ α} {f : α → StateM σ β} {g : α → StateM τ β}
    (h : Agree R x y) (hfg : ∀ a, Agree R (f a) (g a)) : Agree R (x >>= f) (y >>= g) := by
  intro s t hst
  obtain ⟨ha, hR⟩ := h s t hst
  show ((f (x.run s).1).run (x.run s).2).1 = ((g (y.run t).1).run (y.run t).2).1 ∧
    R ((f (x.run s).1).run (x.run s).2).2 ((g (y.run t).1).run (y.run t).2).2
  rw [← ha]
  exact hfg _ _ _ hR

theorem ite {c : Prop} [Decidable c] {x x' : StateM σ α} {y y' : StateM τ α} (h : Agree R x y)
    (h' : Agree R x' y') : Agree R (if c then x else x') (if c then y else y') := by
  split
  · exact h
  · exact h'

theorem forM {f : α → StateM σ Unit} {g : α → StateM τ Unit} (h : ∀ a, Agree R (f a) (g a))
    (as : List α) : Agree R (as.forM f) (as.forM g) := by
  induction as with
  | nil => exact pure ()
  | cons a as ih => exact (h a).bind fun _ => ih

open Search

variable {watch : Monitor (StateM σ)} {watch' : Monitor (StateM τ)} {weight : Float}

theorem run (hexpired : Agree R watch.expired watch'.expired)
    (hrecord : ∀ e, Agree R (watch.record e) (watch'.record e)) (s : State) :
    Agree R (Search.run watch weight s) (Search.run watch' weight s) := by
  induction hn : stackCost s.stack using Nat.strongRecOn generalizing s with
  | ind n ih =>
    obtain ⟨stack, stats⟩ := s
    cases stack with
    | nil =>
      rw [run_nil, run_nil]
      exact pure _
    | cons f rest =>
      rw [run_cons, run_cons]
      refine hexpired.bind fun late => ?_
      cases late with
      | true => exact pure _
      | false =>
        refine (forM hrecord _).bind fun _ => ?_
        split
        · exact pure _
        · rename_i t ht
          exact ih _ (hn ▸ stackCost_turn ht) t rfl

theorem solveUnder (hexpired : Agree R watch.expired watch'.expired)
    (hrecord : ∀ e, Agree R (watch.record e) (watch'.record e)) (f : Cnf) :
    Agree R (Solver.solveUnder watch weight f) (Solver.solveUnder watch' weight f) := by
  refine (hrecord _).bind fun _ =>
    ite ((pure _).bind fun out => ?_) ((run hexpired hrecord _).bind fun out => ?_)
  all_goals
    exact ite ((hrecord _).bind fun _ => (hrecord _).bind fun _ => pure _)
      ((hrecord _).bind fun _ => pure _)

end Agree
end DpllSat
