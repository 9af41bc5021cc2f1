import DpllSat.Dimacs.Writer
import DpllSat.Proofs.Dimacs.Reading

/-! Formulas that are written out are read back as they were. -/
namespace DpllSat

theorem Text.Numeral.isWord {ds : List Char} {n : Nat} (h : Text.Numeral ds n) : Text.IsWord ds :=
  ⟨h.ne_nil, fun d hd => Text.not_isBlank_of_isDigit (h.isDigit d hd)⟩

namespace Lit

theorem isWord_text (l : Lit) : Text.IsWord l.text := by
  have hw := (Text.numeral_toDigits l.var.index).isWord
  unfold text
  split
  · exact hw
  · exact .cons (by decide) hw.not_blank

theorem isDigit_of_mem_text {l : Lit} {c : Char} (h : c ∈ l.text) : c.isDigit = true ∨ c = '-' := by
  have hd := (Text.numeral_toDigits l.var.index).isDigit
  unfold text at h
  split at h
  · exact Or.inl (hd c h)
  · exact (List.mem_cons.1 h).symm.imp_left (hd c)

theorem not_mem_text {c : Char} (hc : ¬ (c.isDigit = true ∨ c = '-')) (l : Lit) : c ∉ l.text :=
  fun h => hc (isDigit_of_mem_text h)

end Lit

namespace Dimacs

open Text

section Lines

theorem spaced_headerLine (v n : Nat) :
    Spaced (headerLine v n) [['p'], ['c', 'n', 'f'], Nat.toDigits 10 v, Nat.toDigits 10 n] := by
  have hp : IsWord ['p'] := ⟨by simp, by simp [isBlank]⟩
  have hcnf : IsWord ['c', 'n', 'f'] := ⟨by simp, by simp [isBlank]⟩
  have hv := (numeral_toDigits v).isWord
  have hn := (numeral_toDigits n).isWord
  exact .word hp rfl (.word hcnf rfl (.word hv rfl (.last hn)))

theorem starts_headerLine (v n : Nat) : Starts 'p' (headerLine v n) :=
  head?_trim (spaced_headerLine v n)

theorem headerText_headerLine {v n : Nat} (hv : v ≤ maxVariable) (hn : n ≤ maxUnsigned64) :
    HeaderText (headerLine v n) v n :=
  ⟨_, spaced_headerLine v n, _, _, rfl, unsigned_toDigits v, hv, unsigned_toDigits n, hn⟩

theorem spaced_clauseLine (c : Clause) : Spaced (clauseLine c) (c.map Lit.text ++ [['0']]) := by
  induction c with
  | nil => exact .last (numeral_toDigits 0).isWord
  | cons l c ih =>
    have hl : clauseLine (l :: c) = l.text ++ ' ' :: clauseLine c := by
      simp [clauseLine]
    rw [hl, List.map_cons, List.cons_append]
    exact .word l.isWord_text rfl ih

theorem eq_of_mem_clauseLine {c : Clause} {d : Char} (h : d ∈ clauseLine c) :
    d.isDigit = true ∨ d = '-' ∨ d = ' ' := by
  simp only [clauseLine, List.mem_append, List.mem_flatMap, List.mem_singleton] at h
  rcases h with ⟨l, -, hd | rfl⟩ | rfl
  · exact (Lit.isDigit_of_mem_text hd).imp_right Or.inl
  · exact Or.inr (Or.inr rfl)
  · exact Or.inl rfl

theorem exists_starts_clauseLine (c : Clause) :
    ∃ d, Starts d (clauseLine c) ∧ d ≠ 'c' ∧ d ≠ 'p' ∧ d ≠ '%' := by
  have ht := head?_trim (spaced_clauseLine c)
  cases c with
  | nil => exact ⟨'0', ht, by decide, by decide, by decide⟩
  | cons l c =>
    obtain ⟨d, ds, hd⟩ := List.exists_cons_of_ne_nil l.isWord_text.ne_nil
    rw [List.map_cons, hd] at ht
    refine ⟨d, ht, ?_, ?_, ?_⟩ <;>
    · rintro rfl
      exact absurd (Lit.isDigit_of_mem_text (hd ▸ List.mem_cons_self)) (by decide)

theorem clauseText_clauseLine (c : Clause) : ClauseText (clauseLine c) c := by
  obtain ⟨d, hd, -, hp, -⟩ := exists_starts_clauseLine c
  refine ⟨fun h => hp (hd.eq h), _, spaced_clauseLine c, c.map Lit.text, ['0'], rfl, ?_,
    Or.inl ⟨0, unsigned_toDigits 0, rfl⟩⟩
  rw [List.forall₂_map_left_iff, List.forall₂_same]
  exact fun l _ => l.signed_text

theorem header?_headerLine (v n : Nat) :
    header? (words (headerLine v n)) =
      if maxUnsigned32 < v then .error .variableCount
      else if maxVariable < v then .error .variableRange
      else if maxUnsigned64 < n then .error .clauseCount
      else .ok ⟨v, n⟩ := by
  rw [words_of_spaced (spaced_headerLine v n), header?, if_neg (not_not.2 rfl),
    if_neg (not_not.2 rfl), unsigned?_toDigits, unsigned?_toDigits]
  by_cases hv : maxUnsigned32 < v
  · simp only [if_pos hv]
  · simp only [if_neg hv]
    by_cases hn : maxUnsigned64 < n
    · simp only [if_pos hn]
    · simp only [if_neg hn]

theorem not_mem_headerLine (v n : Nat) : '\n' ∉ headerLine v n := by
  have hdigits (k : Nat) : '\n' ∉ Nat.toDigits 10 k := fun h =>
    absurd ((numeral_toDigits k).isDigit _ h) (by decide)
  simp [headerLine, hdigits]

theorem not_mem_of_mem_linesOf {f : Cnf} {cs : List Char} (h : cs ∈ linesOf f) : '\n' ∉ cs := by
  rcases List.mem_cons.1 h with rfl | h
  · exact not_mem_headerLine _ _
  · obtain ⟨c, -, rfl⟩ := List.mem_map.1 h
    exact fun hc => absurd (eq_of_mem_clauseLine hc) (by decide)

/-- Every line that is written counts when it is read. -/
theorem kept_of_mem_linesOf {f : Cnf} {cs : List Char} (h : cs ∈ linesOf f) : Kept cs := by
  rcases List.mem_cons.1 h with rfl | h
  · exact (starts_headerLine _ _).header_kept
  · obtain ⟨c, -, rfl⟩ := List.mem_map.1 h
    obtain ⟨d, hd, hc, -, hpercent⟩ := exists_starts_clauseLine c
    exact hd.kept_of_ne hc hpercent

theorem ofBytes?_headerLine (v n : Nat) :
    Line.ofBytes? (encode (headerLine v n)) = some (.header (words (headerLine v n))) := by
  rw [Line.ofBytes?, decode?_encode, Option.map_some, words_of_spaced (spaced_headerLine v n)]
  rfl

end Lines

theorem readText_unlines {ls : List (List Char)} (h : ∀ cs ∈ ls, '\n' ∉ cs) :
    readText (unlines ls) = readFrom 1 (ls.map encode) := by
  rw [readText, unlines, toList_toUTF8_ofList, read, lines_encode h]

theorem content_map_encode {ls : List (List Char)} (h : ∀ cs ∈ ls, Kept cs) :
    Content (ls.map encode) ls := by
  induction ls with
  | nil => exact content_nil.2 rfl
  | cons cs ls ih =>
    obtain ⟨hcs, hls⟩ := List.forall_mem_cons.1 h
    exact (content_of_kept hcs).2 ⟨ls, rfl, ih hls⟩

theorem readText_toDimacs_of_le {f : Cnf} (hv : f.numVars ≤ maxVariable)
    (hn : f.clauses.length ≤ maxUnsigned64) :
    readText f.toDimacs = .ok ⟨f, f.clauses.length⟩ := by
  rw [Cnf.toDimacs, readText_unlines fun cs hcs => not_mem_of_mem_linesOf hcs, readFrom_eq_ok_iff]
  refine ⟨_, _, content_map_encode fun cs hcs => kept_of_mem_linesOf hcs,
    headerText_headerLine hv hn, ?_⟩
  rw [List.forall₂_map_left_iff, List.forall₂_same]
  exact fun c _ => clauseText_clauseLine c

theorem readText_toDimacs_of_error {f : Cnf} {fault : HeaderFault}
    (h : header? (words (headerLine f.numVars f.clauses.length)) = .error fault) :
    readText f.toDimacs = .error (.badHeader 1 fault) := by
  rw [Cnf.toDimacs, readText_unlines fun cs hcs => not_mem_of_mem_linesOf hcs, linesOf,
    List.map_cons, readFrom]
  simp only [ofBytes?_headerLine, h]

/-- Written out and read back, the formula is the same, and nothing is warned of. -/
def Survives (f : Cnf) : Prop :=
  ∃ r, readText f.toDimacs = .ok r ∧ r.cnf = f ∧ r.warnings = []

def rewrite? (text : String) : Except ReadError String :=
  (readText text).map fun r => r.cnf.toDimacs

theorem survives_of_le {f : Cnf} (hv : f.numVars ≤ maxVariable)
    (hn : f.clauses.length ≤ maxUnsigned64) : Survives f :=
  ⟨_, readText_toDimacs_of_le hv hn, rfl, if_pos rfl⟩

/-- A formula survives being written and read unless it declares more variables than literals
can have, and then its header is the error. So whatever has been read survives, and writing it
gives a text that reading and writing leave alone. Lengths have to fit a 64-bit word, as they do
in memory: the header declares the number of clauses, and the reader refuses a larger one. -/
theorem write_read_roundTrip :
    (∀ f : Cnf, f.numVars ≤ maxVariable → f.clauses.length ≤ maxUnsigned64 → Survives f) ∧
    (∀ f : Cnf, maxVariable < f.numVars → readText f.toDimacs =
      .error (.badHeader 1 (if f.numVars ≤ maxUnsigned32 then .variableRange else .variableCount))) ∧
    (∀ text r, readText text = .ok r → text.utf8ByteSize ≤ maxUnsigned64 →
      Survives r.cnf ∧ rewrite? r.cnf.toDimacs = .ok r.cnf.toDimacs) := by
  refine ⟨fun f => survives_of_le, fun f hv => ?_, fun text r hr hsize => ?_⟩
  · apply readText_toDimacs_of_error
    rw [header?_headerLine]
    by_cases h : f.numVars ≤ maxUnsigned32
    · rw [if_neg (Nat.not_lt.2 h), if_pos hv, if_pos h]
    · rw [if_pos (Nat.lt_of_not_le h), if_neg h]
  · have hv : r.cnf.numVars ≤ maxVariable := numVars_le_of_read hr
    have hn := length_clauses_le_of_read hr
    rw [length_toList_toUTF8] at hn
    replace hn := Nat.le_trans hn hsize
    refine ⟨survives_of_le hv hn, ?_⟩
    rw [rewrite?, readText_toDimacs_of_le hv hn]
    rfl

/-- An empty clause, a repeated literal and a variable beyond the declared ones. -/
def scattered : Cnf := ⟨2, [[], [3, 3, -1], [1, -1]].map (List.filterMap Lit.ofDimacs?)⟩

/-- Lines that the writer would not write, with a count that is wrong and a trailer. -/
def noisy : List (List Char) :=
  [['c'], [' ', 'p', ' ', 'c', 'n', 'f', ' ', '1', ' ', '7'], [],
    ['-', '1', ' ', '+', '1', '\t', '-', '0', '0', '\r'], ['%'], ['?']]

def plain : Cnf := ⟨1, [[-1, 1].filterMap Lit.ofDimacs?]⟩

theorem readText_noisy : readText (unlines noisy) = .ok ⟨plain, 7⟩ := by
  rw [readText_unlines (by decide)]
  simp only [noisy, List.map, readFrom, clausesFrom, Line.ofBytes?, decode?_encode]
  rfl

theorem write_read_roundTrip_scattered :
    Survives scattered ∧
    readText (Cnf.toDimacs ⟨maxVariable + 1, []⟩) = .error (.badHeader 1 .variableRange) ∧
    Survives plain ∧ rewrite? plain.toDimacs = .ok plain.toDimacs := by
  obtain ⟨hs, he, hr⟩ := write_read_roundTrip
  exact ⟨hs scattered (by decide) (by decide), he ⟨maxVariable + 1, []⟩ (by decide),
    hr (unlines noisy) ⟨plain, 7⟩ readText_noisy (by decide)⟩

end Dimacs
end DpllSat
