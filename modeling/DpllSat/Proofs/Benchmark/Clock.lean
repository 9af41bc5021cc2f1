import DpllSat.Benchmark.Run
import DpllSat.Proofs.Deadline
import DpllSat.Proofs.Files.Create
import DpllSat.Proofs.Search.Simulation

/-! Benchmark runs by the clock. As long as no time limit is reached, a file gets the row that it
would get without any. -/
namespace DpllSat

/-- A desk beside a clock, which shows `clock n` when it is looked at for the `n`-th time. The
entries of a directory are listed in the order that `arrange` gives them. -/
structure ClockedDesk (clock : Nat → Nat) (arrange : Path → List Name → List Name) where
  desk : Desk
  asked : Nat

abbrev Clocked (clock : Nat → Nat) (arrange : Path → List Name → List Name) : Type → Type :=
  StateM (ClockedDesk clock arrange)

namespace ClockedDesk

variable {clock : Nat → Nat} {arrange : Path → List Name → List Name} {α : Type}

def onDesk (act : StateM Desk α) : Clocked clock arrange α := fun d =>
  let (a, desk) := act.run d.desk
  (a, { d with desk := desk })

instance : Host (Clocked clock arrange) where
  Handle := Nat
  read path := onDesk (Host.read path)
  create path := onDesk (Host.create path)
  append id text := onDesk (Host.append id text)
  list path := onDesk do
    let listing ← Host.list path
    return { listing with names := arrange path listing.names }
  isDirectory path := onDesk (Host.isDirectory path)
  now := fun d => (clock d.asked, { d with asked := d.asked + 1 })
  print n := onDesk (Host.print n)

def later (o : ClockedDesk clock arrange) (n : Nat) : ClockedDesk clock arrange :=
  { o with asked := o.asked + n }

def withFiles (o : ClockedDesk clock arrange) (fs : FileSystem) : ClockedDesk clock arrange :=
  { o with desk := { o.desk with files := fs } }

theorem later_later (o : ClockedDesk clock arrange) (m n : Nat) :
    (o.later m).later n = o.later (m + n) := by
  rw [later, later, Nat.add_assoc]
  rfl

end ClockedDesk

namespace Benchmark

open Dimacs Solver Search

/-- The row of a file without time limits, but for the time that it takes. -/
def rowOf (weight : Float) (path : Path) : Option Reading → Row
  | none => .blank path .parseError
  | some r => .ofReport path r.cnf (r.cnf.solve weight)

section

variable (clock : Nat → Nat) (setup : Setup)

/-- Whether the solver finds its time up at the `k`-th check, if it looked at the clock for the
`n`-th time when it started. -/
def late (n k : Nat) : Bool := setup.config.expired (clock (n + 1 + k) - clock n)

/-- How often the clock is looked at for a file that reads as given: when the file is taken up
and when its row is there, and in between by the solver. -/
def readings (n : Nat) : Option Reading → Nat
  | none => 2
  | some r => checks (late clock setup (n + 1)) setup.solver.weight r.cnf + 3

/-- No time limit is reached with a file that is taken up at the `n`-th look at the clock. -/
structure FileInTime (n : Nat) (loaded : Option Reading) : Prop where
  solver : ∀ r, loaded = some r →
    ∀ k < checks (late clock setup (n + 1)) setup.solver.weight r.cnf,
      late clock setup (n + 1) k = false
  budget : clock (n + readings clock setup n loaded - 1) - clock n < setup.budget

/-- No time limit is reached with any of the files, which are taken up one after the other. -/
def InTime (n : Nat) : List (Option Reading) → Prop
  | [] => True
  | loaded :: rest =>
    FileInTime clock setup n loaded ∧ InTime (n + readings clock setup n loaded) rest

end

variable {clock : Nat → Nat} {arrange : Path → List Name → List Name} {setup : Setup}
  {path : Path} {loaded : Option Reading}

theorem read_run (o : ClockedDesk clock arrange) (path : Path) :
    (Host.read path : Clocked clock arrange _).run o = pure (o.desk.files.read path, o) := rfl

theorem list_run (o : ClockedDesk clock arrange) (dir : Path) :
    (Host.list dir : Clocked clock arrange _).run o =
      pure (⟨arrange dir (o.desk.files.list dir).names, (o.desk.files.list dir).fault?⟩, o) := rfl

theorem isDirectory_run (o : ClockedDesk clock arrange) (path : Path) :
    (Host.isDirectory path : Clocked clock arrange _).run o =
      pure (o.desk.files.isDirectory path, o) := rfl

theorem now_run (o : ClockedDesk clock arrange) :
    (Host.now : Clocked clock arrange _).run o = pure (clock o.asked, o.later 1) := rfl

theorem append_run (o : ClockedDesk clock arrange) (id : Nat) (text : String) :
    (Host.append id text : Clocked clock arrange _).run o =
      pure (.ok (), o.withFiles (o.desk.files.append id (Text.encode text.toList))) := rfl

theorem create_run {log : Path} {id : Nat} {fs : FileSystem} (o : ClockedDesk clock arrange)
    (h : o.desk.files.create log = .ok (id, fs)) :
    (Host.create log : Clocked clock arrange _).run o = pure (.ok id, o.withFiles fs) := by
  show (let (a, desk) := Desk.create log o.desk; (a, { o with desk := desk })) = _
  rw [Desk.create, h]
  rfl

theorem create_run_error {log : Path} {e : FileError} (o : ClockedDesk clock arrange)
    (h : o.desk.files.create log = .error e) :
    (Host.create log : Clocked clock arrange _).run o = pure (.error e, o) := by
  show (let (a, desk) := Desk.create log o.desk; (a, { o with desk := desk })) = _
  rw [Desk.create, h]
  rfl

def watchFrom (config : Config) (start : Nat) : Monitor (Clocked clock arrange) where
  expired := do return config.expired ((← Host.now) - start)
  record := fun _ => pure ()

theorem agree_watchFrom (desk : Desk) (n : Nat) (weight : Float) (f : Cnf) :
    Agree (fun (w : Watched) (o : ClockedDesk clock arrange) => o = ⟨desk, n + 1 + w.checks⟩)
      (solveUnder (scripted (late clock setup n)) weight f)
      (solveUnder (watchFrom setup.config (clock n)) weight f) := by
  refine Agree.solveUnder ?_ ?_ f
  · rintro w o rfl
    exact ⟨rfl, rfl⟩
  · rintro e w o rfl
    exact ⟨rfl, rfl⟩

theorem solveScripted_of_not_late {expired : Nat → Bool} {weight : Float} {f : Cnf}
    (h : ∀ k < checks expired weight f, expired k = false) :
    (solveScripted expired weight f).1 = f.solve weight := by
  by_cases hf : [] ∈ f.clauses
  · rw [(solveScripted_of_nil_mem expired weight hf).1]
    exact (solveScripted_of_nil_mem _ weight hf).1.symm
  · rcases solveScripted_cases expired weight hf with ⟨-, -, hr⟩ | ⟨n, hn, -, hlate, -⟩
    · exact hr
    · simp [h n (by omega)] at hlate

theorem solveUnder_watchFrom (f : Cnf) (o : ClockedDesk clock arrange)
    (h : ∀ k < checks (late clock setup o.asked) setup.solver.weight f,
      late clock setup o.asked k = false) :
    (solveUnder (watchFrom setup.config (clock o.asked)) setup.solver.weight f).run (o.later 1) =
      (f.solve setup.solver.weight,
        o.later (1 + checks (late clock setup o.asked) setup.solver.weight f)) := by
  obtain ⟨hr, ho⟩ := agree_watchFrom o.desk o.asked setup.solver.weight f ⟨0, #[]⟩ (o.later 1) rfl
  rw [← ClockedDesk.later_later]
  exact Prod.ext (hr.symm.trans (solveScripted_of_not_late h)) ho

theorem solveFile_of_none (o : ClockedDesk clock arrange)
    (h : o.desk.files.formula? path = none) :
    (solveFile setup.config path : Clocked clock arrange _).run o =
      (.blank path .parseError, o) := by
  unfold solveFile
  rw [StateT.run_bind, read_run, pure_bind]
  unfold FileSystem.formula? at h
  split at h
  · rename_i hr
    simp only [hr]
    rfl
  · rename_i bytes hr
    simp only [hr]
    cases hread : Dimacs.read bytes with
    | error e => rfl
    | ok r =>
      rw [hread] at h
      cases h

theorem solveFile_of_some {r : Reading} (o : ClockedDesk clock arrange)
    (h : o.desk.files.formula? path = some r)
    (hin : ∀ k < checks (late clock setup o.asked) setup.solver.weight r.cnf,
      late clock setup o.asked k = false) :
    (solveFile setup.config path : Clocked clock arrange Row).run o =
      (.ofReport path r.cnf (r.cnf.solve setup.solver.weight),
        o.later (1 + checks (late clock setup o.asked) setup.solver.weight r.cnf)) := by
  have hsolve := solveUnder_watchFrom r.cnf o hin
  unfold solveFile
  rw [StateT.run_bind, read_run, pure_bind]
  unfold FileSystem.formula? at h
  split at h
  · cases h
  · rename_i bytes hr
    cases hread : Dimacs.read bytes with
    | error e =>
      rw [hread] at h
      cases h
    | ok r' =>
      rw [hread] at h
      cases h
      simp only [hr, hread]
      show (do
        let report ← solveUnder (watchFrom setup.config (clock o.asked)) setup.solver.weight r.cnf
        return Row.ofReport path r.cnf report : Clocked clock arrange Row).run (o.later 1) = _
      rw [StateT.run_bind, hsolve]
      rfl

theorem runFile_run (o : ClockedDesk clock arrange) (hload : o.desk.files.formula? path = loaded)
    (h : FileInTime clock setup o.asked loaded) :
    ∃ ms, (runFile setup path : Clocked clock arrange Row).run o =
      ({ rowOf setup.solver.weight path loaded with milliseconds := ms },
        o.later (readings clock setup o.asked loaded)) := by
  obtain ⟨n, hn, hfile⟩ : ∃ n, readings clock setup o.asked loaded = n + 2 ∧
      (solveFile setup.config path : Clocked clock arrange Row).run (o.later 1) =
        pure (rowOf setup.solver.weight path loaded, o.later (1 + n)) := by
    cases loaded with
    | none => exact ⟨0, rfl, solveFile_of_none (o.later 1) hload⟩
    | some r =>
      have hrun := solveFile_of_some (o.later 1) hload (h.solver r rfl)
      rw [ClockedDesk.later_later, Nat.add_comm 1 (checks _ _ _)] at hrun
      exact ⟨_, rfl, hrun⟩
  have hsum : 1 + n + 1 = readings clock setup o.asked loaded := by omega
  have htaken : ¬ setup.budget ≤ clock (o.later (1 + n)).asked - clock o.asked := by
    have hb := h.budget
    rw [← hsum] at hb
    exact Nat.not_le.2 hb
  unfold runFile
  rw [StateT.run_bind, now_run, pure_bind, StateT.run_bind, hfile, pure_bind, StateT.run_bind,
    now_run, pure_bind, ClockedDesk.later_later, hsum]
  simp only [htaken, if_false]
  exact ⟨_, rfl⟩

end Benchmark
end DpllSat
