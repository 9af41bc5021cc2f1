import DpllSat.Proofs.Benchmark.Exactness

/-! Benchmark runs whose log is one of the files to be read. When the turn of the log comes it holds
the lines of the rows before it, and that is no formula; the other files are read as ever. -/
namespace DpllSat
namespace Benchmark

open Dimacs

theorem rowOf_readsAs (weight : Float) (fs fs' : FileSystem) (id : Nat) (path : Path) :
    rowOf weight path (readsAs fs fs' id path) =
      if fs'.fileId? path = some id then .blank path .parseError
      else rowOf weight path (fs.formula? path) := by
  rw [readsAs]
  split <;> rfl

/-- A benchmark run whose log is among the files that it finds gives every path that leads to the
log the row of a file that cannot be read as a formula, and every other path the row that it gets
when the log is none of these files, the time that it takes apart. What was in the log does not
matter, and neither do the rows before. It is assumed that each directory that the search goes
through can be listed to its end, that no name of a file that is found goes over several lines, and
that no time limit is reached in either run. -/
theorem log_among_inputs_parseError {clock clock' : Nat → Nat}
    {arrange arrange' : Path → List Name → List Name}
    (harrange : ∀ dir names, (arrange dir names).Perm names)
    (harrange' : ∀ dir names, (arrange' dir names).Perm names)
    (setup : Setup) (dir log log' : Path) (o : ClockedDesk clock arrange)
    (o' : ClockedDesk clock' arrange') (hfiles : o'.desk.files = o.desk.files)
    (hlists : ∀ sub, Entered o.desk.files dir sub → (o.desk.files.list sub).fault? = none)
    {found : List (List Name)} (hsorted : found.Pairwise (· < ·))
    (hfound : ∀ ns, ns ∈ found ↔ Found o.desk.files dir ns)
    (hlines : ∀ ns ∈ found, ∀ name ∈ ns.getLast?, 10 ∉ name.bytes)
    {id id' : Nat} {fs fs' : FileSystem} (hcreate : o.desk.files.create log = .ok (id, fs))
    (hcreate' : o.desk.files.create log' = .ok (id', fs'))
    (hapart : ∀ ns ∈ found, fs'.fileId? (dir.under ns) ≠ some id')
    (hin : InTime clock setup o.asked
      (found.map fun ns => readsAs o.desk.files fs id (dir.under ns)))
    (hin' : InTime clock' setup o'.asked
      (found.map fun ns => o.desk.files.formula? (dir.under ns))) :
    (∀ ns, dir.under ns = log → fs.fileId? (dir.under ns) = some id) ∧
    ∃ rows last rows' last',
      (run setup dir log : Clocked clock arrange _).run o = (.ok rows, last) ∧
      (run setup dir log' : Clocked clock' arrange' _).run o' = (.ok rows', last') ∧
      List.Forall₂ (fun ns row => row.Records setup.solver.weight (dir.under ns)
        (o.desk.files.formula? (dir.under ns))) found rows' ∧
      rows.map Row.untimed = List.zipWith (fun ns row' =>
        if fs.fileId? (dir.under ns) = some id then .blank (dir.under ns) .parseError
        else row'.untimed) found rows' := by
  obtain ⟨rows, last, hrun, hrows, -⟩ := run_spec harrange o hlists hsorted hfound hcreate
    (fun _ _ _ => hlines) hin
  rw [← hfiles] at hlists hfound hcreate' hin'
  obtain ⟨rows', last', hrun', hrows', -⟩ :=
    run_apart harrange' o' hlists hsorted hfound hcreate' hapart hin'
  rw [hfiles] at hrows'
  have hleads := (FileSystem.created_of_create hcreate).leads
  refine ⟨fun ns hns => hns ▸ hleads, rows, last, rows', last', hrun, hrun',
    forall₂_records hrows', ?_⟩
  let amended (ns : List Name) (row : Row) : Row :=
    if fs.fileId? (dir.under ns) = some id then .blank (dir.under ns) .parseError else row
  calc rows.map Row.untimed
      = found.map (fun ns => amended ns
          (rowOf setup.solver.weight (dir.under ns) (o.desk.files.formula? (dir.under ns)))) :=
        hrows.trans (List.map_congr_left fun ns _ => rowOf_readsAs _ _ _ _ _)
    _ = List.zipWith amended found (rows'.map Row.untimed) := by
        rw [hrows', List.zipWith_map_right, List.zipWith_self]
    _ = List.zipWith (fun ns row' => amended ns row'.untimed) found rows' :=
        List.zipWith_map_right

theorem log_among_inputs_parseError_shelf :
    ∃ rows last rows' last',
      runStill (.ofText "d") (.ofText "d/unit.cnf") shelf = (.ok rows, last) ∧
      runStill (.ofText "d") (.ofText "out.log") shelf = (.ok rows', last') ∧
      rows.map Row.status = [.parseError, .parseError] ∧
      rows'.map Row.status = [.parseError, .sat] := by
  have hbelow : formulasBelow shelf [named "d" rfl] =
      [[named "more" rfl, named "empty.cnf" rfl], [named "unit.cnf" rfl]] := by decide
  obtain ⟨fs, hcreate⟩ : ∃ fs, shelf.create (.ofText "d/unit.cnf") = .ok (0, fs) := ⟨_, rfl⟩
  obtain ⟨fs', hcreate'⟩ : ∃ fs', shelf.create (.ofText "out.log") = .ok (shelf.fresh, fs') :=
    ⟨_, rfl⟩
  obtain ⟨hlog, rows, last, rows', last', hrun, hrun', hrecords, hrows⟩ :=
    log_among_inputs_parseError (fun _ => List.reverse_perm) (fun _ => List.reverse_perm) minute
      (.ofText "d") (.ofText "d/unit.cnf") (.ofText "out.log") (still shelf) (still shelf) rfl
      (fun sub => plain_shelf.fault?_of_entered)
      (by rw [hbelow]; decide) (fun ns => plain_shelf.mem_formulasBelow_iff)
      (by rw [hbelow]; decide) hcreate hcreate' (fun ns => apart_of_fresh plain_shelf hcreate')
      (inTime_still _ _) (inTime_still _ _)
  rw [hbelow] at hrecords hrows
  obtain ⟨empty, unit, rfl, hempty, hunit⟩ := forall₂_pair_left hrecords
  have hown := hlog [named "unit.cnf" rfl] rfl
  have hempty : empty.status = .parseError := (hempty.of_none rfl).1
  have hunit : unit.status = .sat := status_of_unitBytes hunit
  refine ⟨rows, last, [empty, unit], last', hrun, hrun', ?_,
    congrArg₂ (fun a b => [a, b]) hempty hunit⟩
  have hstatus : rows.map Row.status = (rows.map Row.untimed).map Row.status := by
    rw [List.map_map]
    rfl
  rw [hstatus, hrows]
  simp only [List.zipWith_cons_cons, List.zipWith_nil_left, List.map_cons, List.map_nil,
    if_pos hown]
  congr 1
  split
  · rfl
  · exact hempty

theorem plain_maze_linked : Plain maze (.ofText "k") [named "k" rfl] :=
  .of_spots rfl ⟨_, _, rfl⟩ (by decide) (by decide)

theorem formulasBelow_linked : formulasBelow maze [named "k" rfl] =
    [[named "a.cnf" rfl], [named "bb.cnf" rfl]] := by decide

theorem run_linked :
    ∃ row row' last, runStill (.ofText "k") (.ofText "k/a.cnf") maze = (.ok [row, row'], last) ∧
      row.status = .parseError ∧ row'.path = "k/bb.cnf" ∧ row'.status = .parseError := by
  obtain ⟨fs, hcreate⟩ : ∃ fs, maze.create (.ofText "k/a.cnf") = .ok (6, fs) := ⟨_, rfl⟩
  have hcreated := FileSystem.created_of_create hcreate
  obtain ⟨rows, last, hrun, hrows, -⟩ := run_spec (fun _ => List.reverse_perm) (still maze)
    (fun sub => plain_maze_linked.fault?_of_entered) (by rw [formulasBelow_linked]; decide)
    (fun ns => plain_maze_linked.mem_formulasBelow_iff) hcreate
    (fun _ _ _ => by rw [formulasBelow_linked]; decide) (inTime_still _ _)
  have hrecords := forall₂_records hrows
  rw [formulasBelow_linked] at hrecords
  obtain ⟨row, row', rfl, hrow, hrow'⟩ := forall₂_pair_left hrecords
  have hnone {path : Path} (hpath : maze.spotAt path = .ok (.file 6)) :
      readsAs maze fs 6 path = none :=
    if_pos (FileSystem.fileId?_eq_some_iff.2 (hcreated.spotAt hpath))
  exact ⟨row, row', last, hrun, (hrow.of_none (hnone rfl)).1, hrow'.path.trans (by decide),
    (hrow'.of_none (hnone rfl)).1⟩

theorem create_of_long (fs : FileSystem) {log : Path} (h : Path.maxLength < log.length) :
    ∃ e, fs.create log = .error e := by
  cases hcreate : fs.create log with
  | error e => exact ⟨e, rfl⟩
  | ok made =>
    have hleads := (FileSystem.created_of_create hcreate).leads
    rw [fileId?_of_long h] at hleads
    cases hleads

/-- Rows may change that are not the log's, and there may be none. The log can be a file that has a
second name among the inputs; and a log at a path that is found can be impossible to create, since
the path is too long. No time limit is reached. -/
theorem log_may_spread_or_fail :
    (∀ n files, InTime (fun _ => 0) minute n files) ∧
    (Found maze (.ofText "k") [named "a.cnf" rfl] ∧
      Path.under (.ofText "k") [named "a.cnf" rfl] = .ofText "k/a.cnf" ∧
      (∃ row row' last, runStill (.ofText "k") (.ofText "k/a.cnf") maze = (.ok [row, row'], last) ∧
        row.status = .parseError ∧ row'.path = "k/bb.cnf" ∧ row'.status = .parseError) ∧
      ∃ row row' last, runStill (.ofText "k") (.ofText "out.log") maze = (.ok [row, row'], last) ∧
        row.status = .sat ∧ row'.path = "k/bb.cnf" ∧ row'.status = .sat) ∧
    Found maze (.dotted 2044 (.ofText "d")) [named "bb.cnf" rfl] ∧
      ∃ e, runStill (.dotted 2044 (.ofText "d"))
          (Path.under (.dotted 2044 (.ofText "d")) [named "bb.cnf" rfl]) maze =
        (.error (.creating (Path.under (.dotted 2044 (.ofText "d")) [named "bb.cnf" rfl]) e),
          still maze) := by
  refine ⟨inTime_still, ⟨plain_maze_linked.mem_formulasBelow_iff.1 (by decide), by decide,
    run_linked, ?_⟩, plain_maze_long.mem_formulasBelow_iff.1 (by decide), ?_⟩
  · obtain ⟨fs, hcreate⟩ := exists_create_maze
    obtain ⟨rows, last, hrun, hrecords⟩ :=
      run_still plain_maze_linked (by rw [formulasBelow_linked]; decide) hcreate
    rw [formulasBelow_linked] at hrecords
    obtain ⟨row, row', rfl, hrow, hrow'⟩ := forall₂_pair_left hrecords
    exact ⟨row, row', last, hrun, status_of_unitBytes hrow, hrow'.path.trans (by decide),
      status_of_unitBytes hrow'⟩
  · have hlong : Path.maxLength <
        (Path.under (.dotted 2044 (.ofText "d")) [named "bb.cnf" rfl]).length := by
      show _ < ((Path.dotted 2044 (.ofText "d")).child (named "bb.cnf" rfl)).length
      rw [length_child_dotted (by decide)]
      decide
    obtain ⟨e, he⟩ := create_of_long maze hlong
    exact ⟨e, run_of_uncreated (fun _ => List.reverse_perm) (still maze)
      (fun sub => plain_maze_long.fault?_of_entered) he⟩

end Benchmark
end DpllSat
