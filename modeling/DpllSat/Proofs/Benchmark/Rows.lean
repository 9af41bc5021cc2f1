import DpllSat.Proofs.Benchmark.Collect

/-! The rows of a benchmark run and its log. A row goes to the log before the next file is read, so
what a file reads as may depend on the rows before its own. -/
namespace DpllSat
namespace Benchmark

open Dimacs

/-- What a row says of a path that reads as given. -/
structure Row.Records (weight : Float) (path : Path) (loaded : Option Reading) (row : Row) :
    Prop where
  path : row.path = path.text
  of_none : loaded = none → row.status = .parseError ∧ row.vars? = none ∧
    row.clauses? = none ∧ row.stats? = none ∧ row.model? = none
  of_some : ∀ r, loaded = some r → row.status = .ofResult (r.cnf.solve weight).result ∧
    row.vars? = some r.cnf.numVars ∧ row.clauses? = some r.cnf.clauses.length ∧
    row.stats? = some (r.cnf.solve weight).stats ∧ row.model? = (r.cnf.solve weight).result.model?
  parseError_iff : row.status = .parseError ↔ loaded = none
  model_iff : row.model?.isSome ↔ row.status = .sat

theorem Status.ofResult_ne_parseError (result : Result) : ofResult result ≠ parseError := by
  cases result <;> exact Status.noConfusion

theorem Status.ofResult_eq_sat_iff (result : Result) :
    ofResult result = sat ↔ result.model?.isSome := by
  cases result <;> simp [ofResult, Result.model?]

theorem records_rowOf (weight : Float) (path : Path) (loaded : Option Reading) (ms : Nat) :
    Row.Records weight path loaded { rowOf weight path loaded with milliseconds := ms } := by
  cases loaded with
  | none =>
    exact {
      path := rfl
      of_none := fun _ => ⟨rfl, rfl, rfl, rfl, rfl⟩
      of_some := by rintro r ⟨⟩
      parseError_iff := ⟨fun _ => rfl, fun _ => rfl⟩
      model_iff := by simp [rowOf, Row.blank] }
  | some r =>
    exact {
      path := rfl
      of_none := by rintro ⟨⟩
      of_some := by
        rintro r' ⟨⟩
        exact ⟨rfl, rfl, rfl, rfl, rfl⟩
      parseError_iff := ⟨fun h => absurd h (Status.ofResult_ne_parseError _), by rintro ⟨⟩⟩
      model_iff := (Status.ofResult_eq_sat_iff _).symm }

/-- A row but for the time that its file took. -/
def Row.untimed (row : Row) : Row := { row with milliseconds := 0 }

theorem rowOf_path (weight : Float) (path : Path) (loaded : Option Reading) :
    (rowOf weight path loaded).path = path.text := by
  cases loaded <;> rfl

theorem untimed_rowOf (weight : Float) (path : Path) (loaded : Option Reading) (ms : Nat) :
    Row.untimed { rowOf weight path loaded with milliseconds := ms } =
      rowOf weight path loaded := by
  cases loaded <;> rfl

theorem records_of_untimed {weight : Float} {path : Path} {loaded : Option Reading} {row : Row}
    (h : row.untimed = rowOf weight path loaded) : row.Records weight path loaded := by
  have hrow : row = { rowOf weight path loaded with milliseconds := row.milliseconds } := by
    rw [← h]
    rfl
  rw [hrow]
  exact records_rowOf weight path loaded row.milliseconds

theorem forall₂_records {weight : Float} {names : List (List Name)} {dir : Path}
    {load : List Name → Option Reading} {rows : List Row}
    (h : rows.map Row.untimed = names.map fun ns => rowOf weight (dir.under ns) (load ns)) :
    List.Forall₂ (fun ns row => row.Records weight (dir.under ns) (load ns)) names rows := by
  rw [← List.forall₂_eq_eq_eq, List.forall₂_map_left_iff, List.forall₂_map_right_iff] at h
  exact h.flip.imp fun _ _ => records_of_untimed

def logBytes (rows : List Row) : List UInt8 :=
  rows.flatMap fun row => Text.encode (row.logLine ++ "\n").toList

theorem logBytes_append (rows rows' : List Row) :
    logBytes (rows ++ rows') = logBytes rows ++ logBytes rows' := List.flatMap_append

variable {clock : Nat → Nat} {arrange : Path → List Name → List Name} {setup : Setup}
  {dir log : Path} {id : Nat} {fs : FileSystem}

theorem runFiles_after {paths : List Path} {row : Row} {rows : List Row}
    {o last : ClockedDesk clock arrange}
    (h : (runFiles setup id paths : Clocked clock arrange _).run
      (o.withFiles (o.desk.files.append id (logBytes [row]))) = (.ok rows, last)) :
    (do
      match ← Host.append id (row.logLine ++ "\n") with
      | .error e => return .error (.writing e)
      | .ok () => return (← runFiles setup id paths).map (row :: ·) :
        Clocked clock arrange (Except RunError (List Row))).run o =
      (.ok (row :: rows), last) := by
  have hline : logBytes [row] = Text.encode (row.logLine ++ "\n").toList := List.append_nil _
  rw [hline] at h
  have h' : (runFiles setup id paths : Clocked clock arrange _).run (o.withFiles
      (o.desk.files.append id (Text.encode (row.logLine ++ "\n").toList))) =
      pure (.ok rows, last) := h
  rw [StateT.run_bind, append_run, pure_bind]
  show ((do return (← runFiles setup id paths).map (row :: ·)) :
    Clocked clock arrange (Except RunError (List Row))).run (o.withFiles _) = _
  rw [StateT.run_bind, h', pure_bind]
  rfl

theorem runFiles_cons {path : Path} (paths : List Path) {row : Row}
    {o o' : ClockedDesk clock arrange}
    (hrow : (runFile setup path : Clocked clock arrange Row).run o = (row, o')) :
    ∃ next : ClockedDesk clock arrange,
      next.desk.files = o'.desk.files.append id (logBytes [row]) ∧ next.asked = o'.asked ∧
      ∀ rows last, (runFiles setup id paths : Clocked clock arrange _).run next =
          (.ok rows, last) →
        (runFiles setup id (path :: paths) : Clocked clock arrange _).run o =
          (.ok (row :: rows), last) := by
  have hrow' : (runFile setup path : Clocked clock arrange Row).run o = pure (row, o') := hrow
  rw [runFiles, StateT.run_bind, hrow', pure_bind]
  simp only
  split
  · let shown : ClockedDesk clock arrange := { o' with desk := { o'.desk with
      printed := o'.desk.printed.push (.progress row.path row.status.label row.milliseconds) } }
    exact ⟨shown.withFiles _, rfl, rfl, fun rows last h => runFiles_after (o := shown) h⟩
  · exact ⟨o'.withFiles _, rfl, rfl, fun rows last h => runFiles_after h⟩

/-- If every path reads as given, whatever rows of a kind the log holds by then, the rows record
that, and the log gets their lines. -/
theorem runFiles_run {kind : Row → Prop} {load : Path → Option Reading} {paths : List Path}
    {o : ClockedDesk clock arrange} {done : List Row}
    (hload : ∀ path ∈ paths, ∀ rows : List Row, (∀ row ∈ rows, kind row) →
      (fs.append id (logBytes rows)).formula? path = load path)
    (hkind : ∀ path ∈ paths, ∀ row : Row, row.path = path.text → kind row)
    (hdone : ∀ row ∈ done, kind row) (hfiles : o.desk.files = fs.append id (logBytes done))
    (hin : InTime clock setup o.asked (paths.map load)) :
    ∃ rows last, (runFiles setup id paths : Clocked clock arrange _).run o = (.ok rows, last) ∧
      rows.map Row.untimed = paths.map (fun path => rowOf setup.solver.weight path (load path)) ∧
      last.desk.files = fs.append id (logBytes (done ++ rows)) := by
  induction paths generalizing o done with
  | nil => exact ⟨[], o, rfl, rfl, by rw [List.append_nil, hfiles]⟩
  | cons path paths ih =>
    rw [List.forall_mem_cons] at hload hkind
    obtain ⟨hfile, hrest⟩ := hin
    have hloaded : o.desk.files.formula? path = load path := by
      rw [hfiles]
      exact hload.1 done hdone
    obtain ⟨ms, hrow⟩ := runFile_run o hloaded hfile
    let row : Row := { rowOf setup.solver.weight path (load path) with milliseconds := ms }
    obtain ⟨next, hnext, hasked, hrun⟩ := runFiles_cons paths hrow
    -- the row joins those in the log before the next file is read
    have hdone' : ∀ r ∈ done ++ [row], kind r := by
      rw [List.forall_mem_append, List.forall_mem_singleton]
      exact ⟨hdone, hkind.1 row (rowOf_path _ _ _)⟩
    have hfiles' : next.desk.files = fs.append id (logBytes (done ++ [row])) := by
      rw [hnext, logBytes_append, ← FileSystem.append_append, ← hfiles]
      rfl
    obtain ⟨rows, last, hrows, hrecords, hlast⟩ :=
      ih hload.2 hkind.2 hdone' hfiles' (by rw [hasked]; exact hrest)
    refine ⟨row :: rows, last, hrun rows last hrows, ?_, ?_⟩
    · rw [List.map_cons, hrecords, untimed_rowOf]
      rfl
    · rw [hlast, List.append_assoc]
      rfl

theorem run_of_create_error {o : ClockedDesk clock arrange} {e : FileError}
    {found : List (List Name)}
    (h : (collect dir : Clocked clock arrange _).run o = pure (.ok found, o))
    (hcreate : o.desk.files.create log = .error e) :
    (run setup dir log : Clocked clock arrange _).run o = (.error (.creating log e), o) := by
  rw [run, StateT.run_bind, h, pure_bind]
  simp only
  rw [StateT.run_bind, create_run_error o hcreate]
  rfl

theorem run_of_collect {o : ClockedDesk clock arrange} {fs' : FileSystem}
    {found : List (List Name)}
    (h : (collect dir : Clocked clock arrange _).run o = pure (.ok found, o))
    (hcreate : o.desk.files.create log = .ok (id, fs')) :
    (run setup dir log : Clocked clock arrange _).run o =
      (runFiles setup id ((found.mergeSort pathLe).map dir.under) : Clocked clock arrange _).run
        (o.withFiles fs') := by
  rw [run, StateT.run_bind, h, pure_bind]
  simp only
  rw [StateT.run_bind, create_run o hcreate, pure_bind]

end Benchmark
end DpllSat
