import DpllSat.Proofs.Benchmark.LogText
import DpllSat.Proofs.Verdict
import Mathlib.Data.List.Sort

/-! Benchmark runs as a whole: what they find, the rows they return, and the log they leave. -/
namespace DpllSat
namespace Benchmark

open Dimacs

variable {clock : Nat → Nat} {arrange : Path → List Name → List Name} {setup : Setup}
  {dir log path : Path} {id : Nat} {fs fs' : FileSystem}

/-- What a path reads as in the course of a run with its log in a file: to the log itself no
formula, and otherwise what it read as before. -/
def readsAs (fs fs' : FileSystem) (id : Nat) (path : Path) : Option Reading :=
  if fs'.fileId? path = some id then none else fs.formula? path

theorem formula?_append_logBytes (h : FileSystem.Created log id fs fs') {rows : List Row}
    (hrows : fs'.fileId? path = some id → ∀ row ∈ rows, '\n' ∉ row.fileName.toList) :
    (fs'.append id (logBytes rows)).formula? path = readsAs fs fs' id path := by
  by_cases hid : fs'.fileId? path = some id
  · obtain ⟨e, he⟩ := exists_error_logBytes (hrows hid)
    rw [readsAs, if_pos hid, h.formula?_append_of_eq hid he]
  · rw [readsAs, if_neg hid, h.formula?_append_of_ne hid]

theorem eq_child_of_found {ns : List Name} (h : Found fs dir ns) :
    ∃ (sub : Path) (name : Name), ns.getLast? = some name ∧ dir.under ns = sub.child name := by
  cases ns using List.reverseRecOn with
  | nil => exact absurd h not_found_nil
  | append_singleton ns name =>
    exact ⟨dir.under ns, name, List.getLast?_concat, List.foldl_concat _ _ _ _⟩

section

variable (harrange : ∀ dir names, (arrange dir names).Perm names) (o : ClockedDesk clock arrange)
include harrange

variable (hlists : ∀ sub, Entered o.desk.files dir sub → (o.desk.files.list sub).fault? = none)
include hlists

theorem exists_collect : ∃ found : List (List Name),
    (collect dir : Clocked clock arrange _).run o = pure (.ok found, o) ∧
      (found.mergeSort pathLe).Pairwise (· < ·) ∧
      ∀ ns, ns ∈ found.mergeSort pathLe ↔ Found o.desk.files dir ns := by
  obtain ⟨r, hr, hs⟩ := collect_run harrange o dir
  cases r with
  | error e =>
    obtain ⟨sub, hsub, he⟩ := hs
    rw [hlists sub hsub] at he
    cases he
  | ok found =>
    exact ⟨found, hr, pairwise_mergeSort_pathLe hs.1,
      fun ns => List.mem_mergeSort.trans (hs.2.1 ns)⟩

theorem run_of_uncreated {e : FileError} (he : o.desk.files.create log = .error e) :
    (run setup dir log : Clocked clock arrange _).run o = (.error (.creating log e), o) := by
  obtain ⟨found, hr, -⟩ := exists_collect harrange o hlists
  exact run_of_create_error hr he

variable {found : List (List Name)} (hsorted : found.Pairwise (· < ·))
  (hfound : ∀ ns, ns ∈ found ↔ Found o.desk.files dir ns)
  (hcreate : o.desk.files.create log = .ok (id, fs'))
include hsorted hfound hcreate

/-- The rows of a run and its log, which may be among the files that are found as long as no name
of these goes over several lines. -/
theorem run_spec
    (hlines : ∀ ns ∈ found, fs'.fileId? (dir.under ns) = some id →
      ∀ ms ∈ found, ∀ name ∈ ms.getLast?, 10 ∉ name.bytes)
    (hin : InTime clock setup o.asked
      (found.map fun ns => readsAs o.desk.files fs' id (dir.under ns))) :
    ∃ rows last, (run setup dir log : Clocked clock arrange _).run o = (.ok rows, last) ∧
      rows.map Row.untimed = found.map (fun ns =>
        rowOf setup.solver.weight (dir.under ns) (readsAs o.desk.files fs' id (dir.under ns))) ∧
      last.desk.files = fs'.append id (logBytes rows) := by
  have hcreated := FileSystem.created_of_create hcreate
  -- the lines of a row matter only if the log is read
  let kind (row : Row) : Prop :=
    (∃ ns ∈ found, fs'.fileId? (dir.under ns) = some id) → '\n' ∉ row.fileName.toList
  have hload : ∀ path ∈ found.map dir.under, ∀ rows : List Row, (∀ row ∈ rows, kind row) →
      (fs'.append id (logBytes rows)).formula? path = readsAs o.desk.files fs' id path := by
    intro path hpath rows hrows
    obtain ⟨ns, hns, rfl⟩ := List.mem_map.1 hpath
    exact formula?_append_logBytes hcreated fun hid row hrow => hrows row hrow ⟨ns, hns, hid⟩
  have hkind : ∀ path ∈ found.map dir.under, ∀ row : Row, row.path = path.text → kind row := by
    rintro path hpath row hrow ⟨ns, hns, hid⟩
    obtain ⟨ms, hms, rfl⟩ := List.mem_map.1 hpath
    obtain ⟨sub, name, hlast, hbelow⟩ := eq_child_of_found ((hfound ms).1 hms)
    rw [hbelow] at hrow
    exact Row.newline_not_mem_fileName hrow (hlines ns hns hid ms hms name hlast)
  have hfiles : (o.withFiles fs').desk.files = fs'.append id (logBytes []) :=
    (FileSystem.append_nil fs' id).symm
  obtain ⟨rows, last, hrun, hrows, hlast⟩ := runFiles_run (o := o.withFiles fs') hload hkind
    (fun _ h => absurd h List.not_mem_nil) hfiles (by rwa [List.map_map])
  obtain ⟨raw, hr, hraw, hmem⟩ := exists_collect harrange o hlists
  -- what is found is sorted in one way only
  have heq : raw.mergeSort pathLe = found :=
    hraw.eq_of_mem_iff hsorted fun ns => (hmem ns).trans (hfound ns).symm
  rw [List.map_map] at hrows
  refine ⟨rows, last, (run_of_collect hr hcreate).trans ?_, hrows, hlast⟩
  rw [heq]
  exact hrun

theorem run_apart (hapart : ∀ ns ∈ found, fs'.fileId? (dir.under ns) ≠ some id)
    (hin : InTime clock setup o.asked
      (found.map fun ns => o.desk.files.formula? (dir.under ns))) :
    ∃ rows last, (run setup dir log : Clocked clock arrange _).run o = (.ok rows, last) ∧
      rows.map Row.untimed = found.map (fun ns =>
        rowOf setup.solver.weight (dir.under ns) (o.desk.files.formula? (dir.under ns))) ∧
      last.desk.files = fs'.append id (logBytes rows) := by
  have hreads : ∀ ns ∈ found,
      readsAs o.desk.files fs' id (dir.under ns) = o.desk.files.formula? (dir.under ns) :=
    fun ns hns => if_neg (hapart ns hns)
  obtain ⟨rows, last, hrun, hrows, hlast⟩ := run_spec harrange o hlists hsorted hfound hcreate
    (fun ns hns hid => absurd hid (hapart ns hns)) (by rwa [List.map_congr_left hreads])
  refine ⟨rows, last, hrun, hrows.trans (List.map_congr_left fun ns hns => ?_), hlast⟩
  rw [hreads ns hns]

end

end Benchmark

open Benchmark Dimacs

namespace Benchmark

def unitBytes : List UInt8 :=
  (Cnf.toDimacs ⟨1, [[1]].map (List.filterMap Lit.ofDimacs?)⟩).toUTF8.toList

def stock : Nat → FileData
  | 1 => ⟨false, true, unitBytes⟩
  | 2 => ⟨true, true, []⟩
  | _ => ⟨true, true, unitBytes⟩

theorem read_unitBytes :
    Dimacs.read unitBytes = .ok ⟨⟨1, [[1]].map (List.filterMap Lit.ofDimacs?)⟩, 1⟩ :=
  readText_toDimacs_of_le (by decide) (by decide)

theorem status_of_unitBytes {row : Row}
    (h : row.Records defaultWeight path (Dimacs.read unitBytes).toOption) : row.status = .sat := by
  obtain ⟨model, hm⟩ := Solver.exists_model_of_satisfiable defaultWeight
    (f := ⟨1, [[1]].map (List.filterMap Lit.ofDimacs?)⟩) ⟨fun _ => true, by decide⟩
  rw [read_unitBytes] at h
  exact (h.of_some _ rfl).1.trans (congrArg Status.ofResult hm)

def named (s : String) (h : (Name.of? (Text.encode s.toList)).isSome = true) : Name :=
  (Name.of? (Text.encode s.toList)).get h

def openDir : Spot := .dir ⟨true, true, true⟩ none

/-- A file with one clause, a directory with an empty file, and a text. -/
def shelf : FileSystem where
  spots := [([], openDir), ([named "d" rfl], openDir),
    ([named "d" rfl, named "more" rfl], openDir),
    ([named "d" rfl, named "more" rfl, named "empty.cnf" rfl], .file 2),
    ([named "d" rfl, named "notes.txt" rfl], .file 3),
    ([named "d" rfl, named "unit.cnf" rfl], .file 0)]
  nodup := by decide
  closed := by decide
  data := stock
  here := []

theorem plain_shelf : Plain shelf (.ofText "d") [named "d" rfl] :=
  .of_spots rfl ⟨_, _, rfl⟩ (by decide) (by decide)

def minute : Setup := ⟨.default, 60000, true⟩

def still (fs : FileSystem) : ClockedDesk (fun _ => 0) fun _ => List.reverse := ⟨⟨fs, #[]⟩, 0⟩

def runStill (dir log : Path) (fs : FileSystem) :=
  (run minute dir log : Clocked (fun _ => 0) (fun _ => List.reverse) _).run (still fs)

theorem inTime_still (n : Nat) (files : List (Option Reading)) :
    InTime (fun _ => 0) minute n files := by
  induction files generalizing n with
  | nil => trivial
  | cons loaded files ih => exact ⟨⟨fun _ _ _ _ => rfl, by show 0 - 0 < 60000; decide⟩, ih _⟩

theorem apart_of_fresh {d : Place} (h : Plain fs dir d)
    (hcreate : fs.create log = .ok (fs.fresh, fs')) {ns : List Name}
    (hns : ns ∈ formulasBelow fs d) : fs'.fileId? (dir.under ns) ≠ some fs.fresh := by
  have hfound := h.mem_formulasBelow_iff.1 hns
  obtain ⟨⟨spot, hs, -⟩, -⟩ := h.found_iff.1 hfound
  refine h.apart (FileSystem.created_of_create hcreate) ?_ hs ?_
  · rintro rfl
    exact not_found_nil hfound
  · rintro rfl
    exact FileSystem.ne_fresh hs rfl

theorem forall₂_pair_left {α β : Type} {R : α → β → Prop} {a b : α} {rows : List β}
    (h : List.Forall₂ R [a, b] rows) : ∃ row row', rows = [row, row'] ∧ R a row ∧ R b row' := by
  cases h with
  | cons ha h =>
    cases h with
    | cons hb h =>
      cases h
      exact ⟨_, _, rfl, ha, hb⟩

/-- Files of which one cannot be read, a directory that is closed, a socket, a directory with the
name of a formula file, and a file with two names. -/
def maze : FileSystem where
  spots := [([], openDir),
    ([named "d" rfl], openDir),
    ([named "d" rfl, named "a.cnf" rfl], .file 0),
    ([named "d" rfl, named "bb.cnf" rfl], .file 3),
    ([named "e" rfl], openDir),
    ([named "e" rfl, named "a.cnf" rfl], .file 4),
    ([named "e" rfl, named "bb.cnf" rfl], .file 1),
    ([named "f" rfl], openDir),
    ([named "f" rfl, named "a.cnf" rfl], .file 5),
    ([named "f" rfl, named "shut" rfl], .dir ⟨false, false, false⟩ none),
    ([named "g" rfl], openDir),
    ([named "g" rfl, named "s.cnf" rfl], .socket),
    ([named "h" rfl], openDir),
    ([named "h" rfl, named "u.cnf" rfl], openDir),
    ([named "k" rfl], openDir),
    ([named "k" rfl, named "a.cnf" rfl], .file 6),
    ([named "k" rfl, named "bb.cnf" rfl], .file 6)]
  nodup := by decide
  closed := by decide
  data := stock
  here := []

theorem run_still {d : Place} (h : Plain fs dir d)
    (hsorted : (formulasBelow fs d).Pairwise (· < ·))
    (hcreate : fs.create log = .ok (fs.fresh, fs')) :
    ∃ rows last, runStill dir log fs = (.ok rows, last) ∧
      List.Forall₂ (fun ns row => row.Records defaultWeight (dir.under ns)
        (fs.formula? (dir.under ns))) (formulasBelow fs d) rows := by
  obtain ⟨rows, last, hrun, hrows, -⟩ := run_apart (fun _ => List.reverse_perm) (still fs)
    (fun sub => h.fault?_of_entered) hsorted (fun ns => h.mem_formulasBelow_iff) hcreate
    (fun ns => apart_of_fresh h hcreate) (inTime_still _ _)
  exact ⟨rows, last, hrun, forall₂_records hrows⟩

theorem exists_create_maze : ∃ fs', maze.create (.ofText "out.log") = .ok (maze.fresh, fs') :=
  ⟨_, rfl⟩

theorem length_child_dotted {dir : Path} (h : dir.bytes ≠ []) (n : Nat) (name : Name) :
    ((Path.dotted n dir).child name).length = 2 * n + (dir.child name).length := by
  rw [Path.child_dotted h, Path.length_dotted]

theorem resolve_maze_dotted {path : Path} {place : Place} {n : Nat}
    (hhead : path.bytes.head? ≠ some 47) (hfits : 2 * n + path.length ≤ Path.maxLength)
    (h : maze.resolve false path = .ok place) :
    maze.resolve false (Path.dotted n path) = .ok place := by
  rw [← Path.length_dotted] at hfits
  exact FileSystem.resolve_dotted ⟨_, _, rfl, rfl⟩ hhead n hfits h

theorem plain_maze_long :
    Plain maze (Path.dotted 2044 (.ofText "d")) [named "d" rfl] := by
  refine .of_spots (resolve_maze_dotted (by decide) (by decide) rfl) ⟨_, _, rfl⟩ (by decide) ?_
  intro entry hentry hpre hdir
  obtain rfl := (by decide : ∀ entry ∈ maze.spots, [named "d" rfl] <+: entry.1 →
    entry.2.isDir = true → entry = ([named "d" rfl], openDir)) entry hentry hpre hdir
  show (Path.dotted 2044 (.ofText "d")).length ≤ _
  rw [Path.length_dotted]
  decide

end Benchmark
end DpllSat
