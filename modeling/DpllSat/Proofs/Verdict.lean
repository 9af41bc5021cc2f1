import DpllSat.Proofs.Completion
import DpllSat.Proofs.Search.Outcome
import DpllSat.Solver

/-! The verdict of the solver. Without a time limit it is the truth about the formula. -/
namespace DpllSat
namespace Solver

open MonadAttach Search

section

variable {m : Type → Type} [Monad m] [LawfulMonad m] [MonadAttach m] [LawfulMonadAttach m]
  {watch : Monitor m} {weight : Float} {f : Cnf} {r : Report}

theorem eq_of_canReturn_recorded {p : Prop} [Decidable p] {x y : m Unit} {r' : Report}
    (h : CanReturn (if p then do x; y; pure r' else do y; pure r') r) : r = r' := by
  split at h
  · obtain ⟨_, -, h⟩ := LawfulMonadAttach.canReturn_bind_imp' h
    obtain ⟨_, -, h⟩ := LawfulMonadAttach.canReturn_bind_imp' h
    exact (LawfulMonadAttach.eq_of_canReturn_pure h).symm
  · obtain ⟨_, -, h⟩ := LawfulMonadAttach.canReturn_bind_imp' h
    exact (LawfulMonadAttach.eq_of_canReturn_pure h).symm

/-- A report is the result of a search, or of none where a clause is empty. -/
theorem ends_of_canReturn_solveUnder (h : CanReturn (solveUnder watch weight f) r) :
    ∃ out, r = ⟨resultOf f out.verdict, out.stats⟩ ∧
      ([] ∈ f.clauses ∧ out = ⟨.exhausted, .zero⟩ ∨
        [] ∉ f.clauses ∧ Ends weight f.clauses (CanReturn watch.expired true) out) := by
  unfold solveUnder at h
  obtain ⟨_, -, h⟩ := LawfulMonadAttach.canReturn_bind_imp' h
  split at h
  · rename_i he
    obtain ⟨out, hout, h⟩ := LawfulMonadAttach.canReturn_bind_imp' h
    have ho := (LawfulMonadAttach.eq_of_canReturn_pure hout).symm
    exact ⟨out, eq_of_canReturn_recorded h, Or.inl ⟨Cnf.hasEmptyClause_iff.1 he, ho⟩⟩
  · rename_i he
    obtain ⟨out, hout, h⟩ := LawfulMonadAttach.canReturn_bind_imp' h
    have ho := ends_of_canReturn .start hout
    exact ⟨out, eq_of_canReturn_recorded h, Or.inr ⟨mt Cnf.hasEmptyClause_iff.2 he, ho⟩⟩

theorem verdict_of_canReturn (h : CanReturn (solveUnder watch weight f) r) :
    (r.result = .unsat ∧ ¬ Satisfiable f.clauses) ∨
      (∃ model, r.result = .sat model ∧ Satisfiable f.clauses) ∨
      (r.result = .unknown ∧ CanReturn watch.expired true) := by
  obtain ⟨⟨verdict, stats⟩, rfl, ⟨hn, ho⟩ | ⟨hn, ho⟩⟩ := ends_of_canReturn_solveUnder h
  · cases ho
    exact Or.inl ⟨rfl, not_satisfiable_of_nil_mem hn⟩
  · cases verdict with
    | exhausted => exact Or.inl ⟨rfl, ho.not_satisfiable⟩
    | timedOut => exact Or.inr (Or.inr ⟨rfl, ho.of_timedOut⟩)
    | model T => exact Or.inr (Or.inl ⟨_, rfl, ho.satisfiable hn⟩)

end

theorem canReturn_solveScripted (expired : Nat → Bool) (weight : Float) (f : Cnf) :
    CanReturn (solveUnder (scripted expired) weight f) (solveScripted expired weight f).1 :=
  ⟨⟨0, #[]⟩, _, rfl⟩

theorem of_canReturn_expired {expired : Nat → Bool}
    (h : CanReturn (scripted expired).expired true) : ∃ n, expired n = true := by
  obtain ⟨w, w', h⟩ := h
  exact ⟨w.checks, congrArg Prod.fst h⟩

theorem exists_model_of_satisfiable (weight : Float) {f : Cnf} (hf : Satisfiable f.clauses) :
    ∃ model, (f.solve weight).result = .sat model := by
  rcases verdict_of_canReturn (canReturn_solveScripted (fun _ => false) weight f) with
    ⟨-, hn⟩ | ⟨model, hr, -⟩ | ⟨-, hl⟩
  · exact absurd hf hn
  · exact ⟨model, hr⟩
  · obtain ⟨n, hn⟩ := of_canReturn_expired hl
    cases hn

end Solver

open Solver

/-- Without a time limit, and on whatever clock, the answer is `unsat` just when no
assignment satisfies the formula, and a model otherwise. -/
theorem solveTimed_verdict (elapsed : Nat → Nat) (weight : Float) (f : Cnf) :
    ((f.solveTimed elapsed ⟨weight, none⟩).1.result = .unsat ↔ ¬ Satisfiable f.clauses) ∧
      ((∃ model, (f.solveTimed elapsed ⟨weight, none⟩).1.result = .sat model) ↔
        Satisfiable f.clauses) ∧
      (f.solveTimed elapsed ⟨weight, none⟩).1.result ≠ .unknown := by
  have h := verdict_of_canReturn (canReturn_solveScripted (fun _ => false) weight f)
  have hs : f.solveTimed elapsed ⟨weight, none⟩ = solveScripted (fun _ => false) weight f := rfl
  rw [hs]
  rcases h with ⟨hr, hn⟩ | ⟨model, hr, hy⟩ | ⟨-, hl⟩
  · simp [hr, hn]
  · simp [hr, hy]
  · obtain ⟨n, hl⟩ := of_canReturn_expired hl
    cases hl

end DpllSat
