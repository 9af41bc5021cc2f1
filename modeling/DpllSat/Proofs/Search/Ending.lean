import DpllSat.Proofs.Search.Turns
import DpllSat.Search.Run

/-! How a search can end, in whatever surroundings it runs: from a reachable state, with
what the last turn found. -/
namespace DpllSat
namespace Search

open MonadAttach

section

variable {m : Type → Type} [Monad m] (watch : Monitor m) (weight : Float)

theorem run_nil (stats : Stats) : run watch weight ⟨[], stats⟩ = pure ⟨.exhausted, stats⟩ := by
  rw [run]

theorem run_cons (f : Frame) (rest : List Frame) (stats : Stats) :
    run watch weight ⟨f :: rest, stats⟩ = (do
      if ← watch.expired then return ⟨.timedOut, stats⟩
      let u := turn weight f ⟨rest, stats⟩
      u.events.forM watch.record
      match u.step with
      | .found trail stats => return ⟨.model trail, stats⟩
      | .more t => run watch weight t) := by
  rw [run]
  simp only
  congr 1
  funext late
  split
  · rfl
  · split
    · rename_i ht
      simp [ht]
    · rename_i ht
      simp [ht]

end

/-- How a search on `F` can end; `late` says whether the time can run out. -/
inductive Ends (weight : Float) (F : Formula) (late : Prop) : Outcome → Prop
  | exhausted {stats : Stats} : Reachable weight F ⟨[], stats⟩ →
    Ends weight F late ⟨.exhausted, stats⟩
  | timedOut {s : State} : late → Reachable weight F s →
    Ends weight F late ⟨.timedOut, s.stats⟩
  | found {f : Frame} {rest : List Frame} {stats stats' : Stats} {trail : List Lit} :
    Reachable weight F ⟨f :: rest, stats⟩ →
    Exit weight f ⟨rest, stats⟩ (.found trail stats') →
    Ends weight F late ⟨.model trail, stats'⟩

theorem ends_of_canReturn {m : Type → Type} [Monad m] [LawfulMonad m] [MonadAttach m]
    [LawfulMonadAttach m] {watch : Monitor m} {weight : Float} {F : Formula} {s : State}
    {out : Outcome} (hs : Reachable weight F s) (h : CanReturn (run watch weight s) out) :
    Ends weight F (CanReturn watch.expired true) out := by
  induction hn : stackCost s.stack using Nat.strongRecOn generalizing s with
  | ind n ih =>
    obtain ⟨stack, stats⟩ := s
    cases stack with
    | nil =>
      rw [run_nil] at h
      cases LawfulMonadAttach.eq_of_canReturn_pure h
      exact .exhausted hs
    | cons f rest =>
      rw [run_cons] at h
      obtain ⟨late, hlate, h⟩ := LawfulMonadAttach.canReturn_bind_imp' h
      cases late with
      | true =>
        cases LawfulMonadAttach.eq_of_canReturn_pure h
        exact .timedOut hlate hs
      | false =>
        obtain ⟨_, -, h⟩ := LawfulMonadAttach.canReturn_bind_imp' h
        split at h
        · rename_i trail stats' ht
          cases LawfulMonadAttach.eq_of_canReturn_pure h
          exact .found hs (exit_of_turn ht)
        · rename_i t ht
          refine ih _ ?_ (hs.next (exit_of_turn ht)) h rfl
          rw [← hn]
          exact stackCost_turn ht

end Search
end DpllSat
