import DpllSat.Proofs.Benchmark.Rows
import DpllSat.Proofs.Dimacs.RoundTrip
import DpllSat.Proofs.Text.Lossy

/-! The text of a results log, and why it is never read as a formula. A line of it ends in a letter
or a bracket, and so no line declares a number of clauses. -/
namespace DpllSat
namespace Benchmark

open Dimacs Text

namespace Row

def modelPart : Option (List Lit) → List Char
  | none => []
  | some model => ' ' :: ' ' :: modelText model

theorem toList_logLine (row : Row) : row.logLine.toList =
    row.fileName.toList ++ " : ".toList ++ row.status.label.toList ++ modelPart row.model? := by
  have hline : row.logLine = match row.model? with
    | none => row.fileName ++ " : " ++ row.status.label
    | some model => row.fileName ++ " : " ++ row.status.label ++ "  " ++
        String.ofList (modelText model) := rfl
  rw [hline]
  cases row.model? <;> simp [modelPart]

theorem newline_not_mem_modelPart (model? : Option (List Lit)) : '\n' ∉ modelPart model? := by
  cases model? with
  | none => exact List.not_mem_nil
  | some model =>
    have htext (l : Lit) : '\n' ∉ l.text := l.not_mem_text (by decide)
    simp [modelPart, modelText, htext]

theorem newline_not_mem_logLine {row : Row} (h : '\n' ∉ row.fileName.toList) :
    '\n' ∉ row.logLine.toList := by
  have hlabel : '\n' ∉ row.status.label.toList := by cases row.status <;> decide
  have hmodel := newline_not_mem_modelPart row.model?
  rw [toList_logLine]
  simp [h, hlabel, hmodel]

theorem exists_getLast?_logLine (row : Row) : ∃ c, row.logLine.toList.getLast? = some c ∧
    isBlank c = false ∧ c.isDigit = false := by
  rw [toList_logLine]
  cases row.model? with
  | none =>
    rw [modelPart, List.append_nil]
    cases row.status <;> exact ⟨_, List.getLast?_append_of_ne_nil _ (by decide), rfl, rfl⟩
  | some model =>
    have hpart : modelPart (some model) =
        (' ' :: ' ' :: '[' :: model.flatMap fun l => l.text ++ [',']) ++ [']'] := rfl
    refine ⟨']', ?_, by decide, by decide⟩
    rw [hpart, ← List.append_assoc, List.getLast?_concat]

/-- The last word of a line is no number. -/
theorem not_headerText_logLine (row : Row) (v n : Nat) : ¬ HeaderText row.logLine.toList v n := by
  rintro ⟨ws, hspaced, vw, nw, rfl, -, -, ⟨ds, hnw, hds⟩, -⟩
  -- a header ends in the digits of a count
  obtain ⟨c, hc, hblank, hdigit⟩ := exists_getLast?_logLine row
  have hlast : nw.getLast? = some c := getLast?_of_spaced hspaced hc hblank
  have hmem : ds.getLast? = some c := by
    rcases hnw with rfl | rfl
    · exact hlast
    · rwa [List.getLast?_cons_of_ne_nil hds.ne_nil] at hlast
  rw [hds.isDigit c (List.mem_of_getLast? hmem)] at hdigit
  cases hdigit

end Row

theorem lines_logBytes {rows : List Row} (h : ∀ row ∈ rows, '\n' ∉ row.fileName.toList) :
    lines (logBytes rows) = rows.map fun row => encode row.logLine.toList := by
  have hbytes : logBytes rows =
      encode ((rows.map fun row => row.logLine.toList).flatMap (· ++ ['\n'])) := by
    rw [logBytes, encode, List.flatMap_assoc, List.flatMap_map]
    refine List.flatMap_congr fun row _ => ?_
    rw [String.toList_append]
    rfl
  rw [hbytes, lines_encode, List.map_map]
  · rfl
  · exact List.forall_mem_map.2 fun row hrow => row.newline_not_mem_logLine (h row hrow)

/-- Whatever the rows say, and whatever their files are called, the log is not read as a formula
unless a file name goes over several lines. -/
theorem exists_error_logBytes {rows : List Row} (h : ∀ row ∈ rows, '\n' ∉ row.fileName.toList) :
    ∃ e, Dimacs.read (logBytes rows) = .error e := by
  apply exists_error_of_not_header
  intro cs hcs v n
  rw [lines_logBytes h] at hcs
  obtain ⟨row, -, hrow⟩ := List.mem_map.1 hcs
  rw [← encode_injective hrow]
  exact row.not_headerText_logLine v n

/-! The name of a file in its row. -/

theorem Row.pathParts_append_slash (front back : List Char) :
    pathParts (String.ofList (front ++ '/' :: back)) =
      pathParts (String.ofList front) ++ pathParts (String.ofList back) := by
  simp [pathParts, List.splitOn_append_cons_self]

theorem exists_child_eq (dir : Path) (name : Name) : dir.child name = ⟨name.bytes⟩ ∨
    ∃ front, dir.child name = ⟨front ++ 47 :: name.bytes⟩ := by
  unfold Path.child Path.gap
  split
  · rename_i h
    rw [List.getLast?_eq_none_iff] at h
    exact Or.inl (by simp [h])
  · rename_i h
    obtain ⟨front, hfront⟩ := List.getLast?_eq_some_iff.1 h
    exact Or.inr ⟨front, by simp [hfront]⟩
  · exact Or.inr ⟨dir.bytes, by simp⟩

theorem ofList_lossy_ne (name : Name) {s : String} (hs : replacement ∉ s.toList)
    (hne : name.bytes ≠ encode s.toList) : String.ofList (lossy name.bytes) ≠ s := by
  rintro rfl
  rw [String.toList_ofList] at hs hne
  exact hne (encode_lossyFrom hs).symm

theorem slash_not_mem_lossy_name (name : Name) : '/' ∉ lossy name.bytes := fun h =>
  name.slash (mem_of_mem_lossyFrom h (by decide) 47 (by decide))

/-- The row of what is below a directory has its name, as names are shown. -/
theorem Row.fileName_of_path {row : Row} {dir : Path} {name : Name}
    (hpath : row.path = (dir.child name).text) :
    row.fileName = String.ofList (lossy name.bytes) := by
  have hparts : pathParts (String.ofList (lossy name.bytes)) =
      [String.ofList (lossy name.bytes)] := by
    simp [pathParts, List.splitOn_eq_singleton (slash_not_mem_lossy_name name)]
  have hnil := ofList_lossy_ne name (by decide : replacement ∉ "".toList) name.ne_nil
  have hdot := ofList_lossy_ne name (by decide : replacement ∉ ".".toList) name.ne_dot
  have hdots := ofList_lossy_ne name (by decide : replacement ∉ "..".toList) name.ne_dots
  have hlast : ((pathParts row.path).filter fun p => p != "" && p != ".").getLast? =
      some (String.ofList (lossy name.bytes)) := by
    rcases exists_child_eq dir name with h | ⟨front, h⟩
    · rw [hpath, h, Path.text, hparts]
      simp [hnil, hdot]
    · rw [hpath, h, Path.text, lossy, lossyFrom_slash, pathParts_append_slash, hparts]
      simp [hnil, hdot]
  rw [fileName, hlast]
  split
  · rename_i h
    cases h
  · rename_i h
    exact absurd (Option.some.inj h) hdots
  · rename_i h
    exact (Option.some.inj h).symm

theorem Row.newline_not_mem_fileName {row : Row} {dir : Path} {name : Name}
    (hpath : row.path = (dir.child name).text) (hname : 10 ∉ name.bytes) :
    '\n' ∉ row.fileName.toList := by
  rw [Row.fileName_of_path hpath, String.toList_ofList]
  exact fun h => hname (mem_of_mem_lossyFrom h (by decide) 10 (by decide))

end Benchmark
end DpllSat
