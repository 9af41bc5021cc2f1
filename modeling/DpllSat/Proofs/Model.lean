import DpllSat.Command.Run
import DpllSat.Proofs.Dimacs.Reading
import DpllSat.Proofs.ModelCheck
import DpllSat.Proofs.Verdict

/-! The models that the solver answers with: total, in the order of the variables, and
true of the formula, so that the check of a model never fails. -/
namespace DpllSat
namespace Solver

open MonadAttach Search

structure TotalModel (f : Cnf) (model : List Lit) : Prop where
  length_eq : model.length = max f.numVars f.maxVar
  index_eq : ∀ i (h : i < model.length), model[i].var.index = i + 1
  positive : ∀ l ∈ model, ¬ Occurs l.var f.clauses → l.positive = true
  mem_model : ∀ c ∈ f.clauses, ∃ l ∈ c, l ∈ model
  checked : f.firstUnsatisfied model = none

/-- No literal that was assumed is beyond the end of the table that an answer is read from. -/
theorem index_le_of_mem_trail {f : Cnf} {T : List Lit} (hT : Branch.Residual f.clauses ⟨[], T⟩) :
    ∀ l ∈ T, l.var.index ≤ max f.numVars f.maxVar := fun l hl =>
  Nat.le_trans (Cnf.index_le_maxVar (hT.occurs l hl)) (Nat.le_max_right _ _)

theorem totalModel_complete {f : Cnf} (hf : f.numVars ≤ maxVariable) {T : List Lit}
    (hT : Branch.Residual f.clauses ⟨[], T⟩) :
    TotalModel f (Valuation.complete (max f.numVars f.maxVar) T) := by
  have hn : max f.numVars f.maxVar ≤ maxVariable := Nat.max_le.2 ⟨hf, f.maxVar_le_maxVariable⟩
  have hmem : ∀ c ∈ f.clauses, ∃ l ∈ c, l ∈ Valuation.complete (max f.numVars f.maxVar) T := by
    intro c hc
    obtain ⟨l, hl, hlT⟩ := hT.mem_trail rfl c hc
    exact ⟨l, hl, Valuation.mem_complete_of_mem hT.nodup_var hlT (index_le_of_mem_trail hT l hlT)⟩
  constructor
  · exact Valuation.length_complete hn T
  · exact Valuation.index_getElem_complete hn T
  · intro l hl ho
    have hne : ∀ k ∈ T, k.var ≠ l.var := fun k hk hv => ho (hv ▸ hT.occurs k hk)
    rw [(Valuation.mem_complete_iff.1 hl).2, Valuation.getElem?_ofLits_of_notMem hne]
    rfl
  · exact hmem
  · exact Cnf.firstUnsatisfied_of_mem (Valuation.nodup_var_complete hn T) hmem

theorem totalModel_of_canReturn {m : Type → Type} [Monad m] [LawfulMonad m] [MonadAttach m]
    [LawfulMonadAttach m] {watch : Monitor m} {weight : Float} {f : Cnf} {r : Report}
    {model : List Lit} (hf : f.numVars ≤ maxVariable)
    (h : CanReturn (solveUnder watch weight f) r) (hr : r.result = .sat model) :
    TotalModel f model := by
  obtain ⟨⟨verdict, stats⟩, rfl, ⟨-, ho⟩ | ⟨hn, ho⟩⟩ := ends_of_canReturn_solveUnder h
  · cases ho
    cases hr
  · cases verdict with
    | exhausted => cases hr
    | timedOut => cases hr
    | model T =>
      cases hr
      exact totalModel_complete hf (ho.residual hn)

end Solver

namespace Command

open MonadAttach Solver

variable {m : Type → Type} [Monad m] [LawfulMonad m] [MonadAttach m] [LawfulMonadAttach m]
  [Host m]

theorem numVars_le_of_canReturn_load {path : String} {r : Dimacs.Reading}
    (h : CanReturn (load path : m _) (.ok r)) : r.cnf.numVars ≤ maxVariable := by
  unfold load at h
  obtain ⟨e | bytes, -, h⟩ := LawfulMonadAttach.canReturn_bind_imp' h
  · cases LawfulMonadAttach.eq_of_canReturn_pure h
  · exact Dimacs.numVars_le_of_read (LawfulMonadAttach.eq_of_canReturn_pure h)

/-- The command fails for its weight or for its file, and for no other reason. -/
theorem failure_of_canReturn_runSolve {path : String} {config : Config} {verify : Bool}
    {e : Failure} (h : CanReturn (runSolve path config verify : m _) (.error e)) :
    (∃ message, config.validate = .error message ∧ e = .ofMessage message) ∨
      ∃ cause, e = .ofReadError path cause := by
  unfold runSolve at h
  cases hv : config.validate with
  | error message =>
    simp only [hv] at h
    cases LawfulMonadAttach.eq_of_canReturn_pure h
    exact Or.inl ⟨message, rfl, rfl⟩
  | ok _ =>
    simp only [hv] at h
    obtain ⟨start, -, h⟩ := LawfulMonadAttach.canReturn_bind_imp' h
    obtain ⟨cause | reading, hload, h⟩ := LawfulMonadAttach.canReturn_bind_imp' h
    · cases LawfulMonadAttach.eq_of_canReturn_pure h
      exact Or.inr ⟨cause, rfl⟩
    · obtain ⟨watch, -, h⟩ := LawfulMonadAttach.canReturn_bind_imp' h
      obtain ⟨report, hreport, h⟩ := LawfulMonadAttach.canReturn_bind_imp' h
      obtain ⟨now, -, h⟩ := LawfulMonadAttach.canReturn_bind_imp' h
      obtain ⟨_, -, h⟩ := LawfulMonadAttach.canReturn_bind_imp' h
      obtain ⟨_, -, h⟩ := LawfulMonadAttach.canReturn_bind_imp' h
      obtain ⟨_, -, h⟩ := LawfulMonadAttach.canReturn_bind_imp' h
      cases hr : report.result with
      | sat model =>
        have hf := numVars_le_of_canReturn_load hload
        have hc := (totalModel_of_canReturn hf hreport hr).checked
        cases verify with
        | true =>
          simp only [hr, hc] at h
          obtain ⟨_, -, h⟩ := LawfulMonadAttach.canReturn_bind_imp' h
          cases LawfulMonadAttach.eq_of_canReturn_pure h
        | false =>
          simp only at h
          cases LawfulMonadAttach.eq_of_canReturn_pure h
      | unsat =>
        simp only [hr] at h
        cases LawfulMonadAttach.eq_of_canReturn_pure h
      | unknown =>
        simp only [hr] at h
        cases LawfulMonadAttach.eq_of_canReturn_pure h

def checkFailure (i : Nat) : Failure := .ofMessage s!"model does not satisfy clause {i + 1}"

theorem checkFailure_ne_of_validate {config : Config} {message : String}
    (h : config.validate = .error message) (i : Nat) :
    checkFailure i ≠ .ofMessage message := by
  intro he
  unfold Config.validate at h
  split at h
  · cases h
  · cases h
    have hc := congrArg (fun f => f.message.toList.head?) he
    simp [Failure.ofMessage, checkFailure, toString] at hc

theorem checkFailure_ne_ofReadError (i : Nat) (path : String) (e : Dimacs.ReadError) :
    checkFailure i ≠ .ofReadError path e := by
  intro he
  have hc := congrArg (fun f => f.message.toList.head?) he
  simp [Failure.ofReadError, Failure.ofMessage, checkFailure, toString] at hc

theorem not_canReturn_checkFailure (path : String) (config : Config) (verify : Bool) (i : Nat) :
    ¬ CanReturn (runSolve path config verify : m _) (.error (checkFailure i)) := by
  intro h
  rcases failure_of_canReturn_runSolve h with ⟨message, hm, he⟩ | ⟨cause, he⟩
  · exact checkFailure_ne_of_validate hm i he
  · exact checkFailure_ne_ofReadError i path cause he

end Command

open MonadAttach Solver Search

/-- Whenever the time may run out, a model in an answer is total, lists the variables in
order and satisfies the formula. So the command that checks it never finds it wanting, on
any host. -/
theorem sat_answers_pass_check :
    (∀ (f : Cnf) (weight : Float) (expired : Nat → Bool) (model : List Lit),
      f.numVars ≤ maxVariable → (solveScripted expired weight f).1.result = .sat model →
      TotalModel f model) ∧
    ∀ {m : Type → Type} [Monad m] [LawfulMonad m] [MonadAttach m] [LawfulMonadAttach m]
      [Host m] (path : String) (config : Config) (verify : Bool) (i : Nat),
      ¬ CanReturn (Command.runSolve path config verify : m _)
        (.error (Command.checkFailure i)) := by
  constructor
  · intro f weight expired model hf hr
    exact totalModel_of_canReturn hf (canReturn_solveScripted expired weight f) hr
  · intro m _ _ _ _ _ path config verify i
    exact Command.not_canReturn_checkFailure path config verify i

namespace Solver

theorem branching_satisfiable : Satisfiable branching := ⟨fun _ => true, by decide⟩

theorem sat_answers_pass_check_branching :
    (∃ model, (solveScripted (fun _ => false) defaultWeight ⟨4, branching⟩).1.result = .sat model ∧
      TotalModel ⟨4, branching⟩ model) ∧
    ¬ CanReturn (Command.runSolve "a.cnf" .default true : StateM Desk _)
      (.error (Command.checkFailure 0)) := by
  refine ⟨?_, sat_answers_pass_check.2 _ _ _ _⟩
  have hv := verdict_of_canReturn
    (canReturn_solveScripted (fun _ => false) defaultWeight ⟨4, branching⟩)
  rcases hv with ⟨-, hn⟩ | ⟨model, hr, -⟩ | ⟨-, hl⟩
  · exact absurd branching_satisfiable hn
  · exact ⟨model, hr, sat_answers_pass_check.1 _ _ _ model (by decide) hr⟩
  · obtain ⟨n, hl⟩ := of_canReturn_expired hl
    cases hl

end Solver
end DpllSat
