import DpllSat.Proofs.Dimacs.RoundTrip
import DpllSat.Solution

/-! Reading the text of an answer. The status and the model are found there again, however many
literals the model has and wherever its lines are broken. -/
namespace DpllSat
namespace Solution

open Dimacs Text

section Reader

def lines? (text : String) : Option (List (List Char)) :=
  (Text.lines text.toUTF8.toList).mapM decode?

def values? : List Char → Option (List Int)
  | 'v' :: ' ' :: cs => (words cs).mapM (signed? maxSigned64)
  | _ => none

def beforeZero? (ns : List Int) : Option (List Int) :=
  if 0 ∈ ns then some (ns.takeWhile (· ≠ 0)) else none

def model? (ls : List (List Char)) : Option (List Lit) := do
  let rows ← ls.mapM values?
  let ns ← beforeZero? rows.flatten
  ns.mapM Lit.ofDimacs?

/-- The answer that a text gives: a status line and, if that promises a model, value lines. -/
def read? (text : String) : Option Result :=
  match lines? text with
  | some (status :: rest) =>
    if status = "s SATISFIABLE".toList then (model? rest).map .sat
    else if status = "s UNSATISFIABLE".toList then some .unsat
    else if status = "s UNKNOWN".toList then some .unknown
    else none
  | _ => none

end Reader

section Chunks

variable {α : Type} {n : Nat} {xs row : List α}

theorem flatten_chunks (n : Nat) (xs : List α) : (chunks n xs).flatten = xs := by
  fun_induction chunks n xs with
  | case1 => rfl
  | case2 x rest ih => rw [List.flatten_cons, ih, List.cons_append, List.take_append_drop]

theorem length_of_mem_chunks (hn : 0 < n) (h : row ∈ chunks n xs) :
    1 ≤ row.length ∧ row.length ≤ n := by
  fun_induction chunks n xs with
  | case1 => cases h
  | case2 x rest ih =>
    rcases List.mem_cons.1 h with rfl | h
    · rw [List.length_cons, List.length_take]
      omega
    · exact ih h

/-- A piece is cut short only if nothing comes after it. -/
theorem length_of_mem_dropLast_chunks (hn : 0 < n) (h : row ∈ (chunks n xs).dropLast) :
    row.length = n := by
  fun_induction chunks n xs with
  | case1 => cases h
  | case2 x rest ih =>
    cases hrest : rest.drop (n - 1) with
    | nil =>
      rw [hrest, chunks] at h
      cases h
    | cons y ys =>
      have hlen := congrArg List.length hrest
      rw [List.length_drop, List.length_cons] at hlen
      have hne : chunks n (rest.drop (n - 1)) ≠ [] := by
        rw [hrest, chunks]
        exact List.cons_ne_nil _ _
      rw [List.dropLast_cons_of_ne_nil hne] at h
      rcases List.mem_cons.1 h with rfl | h
      · rw [List.length_cons, List.length_take]
        omega
      · exact ih h

end Chunks

section Lines

theorem mapM_eq_some {α β : Type} {f : α → Option β} {g : α → β} {xs : List α}
    (h : ∀ x ∈ xs, f x = some (g x)) : xs.mapM f = some (xs.map g) := by
  induction xs with
  | nil => rfl
  | cons x xs ih =>
    obtain ⟨hx, hxs⟩ := List.forall_mem_cons.1 h
    rw [List.mapM_cons, hx, ih hxs]
    rfl

theorem spaced_append_flatMap {w : List Char} {ws : List (List Char)} (hw : IsWord w)
    (h : ∀ u ∈ ws, IsWord u) : Spaced (w ++ ws.flatMap (' ' :: ·)) (w :: ws) := by
  induction ws generalizing w with
  | nil =>
    rw [List.flatMap_nil, List.append_nil]
    exact .last hw
  | cons u ws ih =>
    obtain ⟨hu, hws⟩ := List.forall_mem_cons.1 h
    exact .word hw rfl (ih hu hws)

/-- No literal is glued to the next one, or to the letter. -/
theorem values?_valueLine {row : List Lit} (h : row ≠ []) :
    values? (valueLine row) = some (row.map Lit.dimacs) := by
  obtain ⟨l, row, rfl⟩ := List.exists_cons_of_ne_nil h
  have hline : valueLine (l :: row) =
      'v' :: ' ' :: (l.text ++ (row.map Lit.text).flatMap (' ' :: ·)) := by
    rw [valueLine, List.flatMap_cons, List.cons_append, List.flatMap_map]
  have hwords : Spaced (l.text ++ (row.map Lit.text).flatMap (' ' :: ·))
      ((l :: row).map Lit.text) :=
    spaced_append_flatMap l.isWord_text (List.forall_mem_map.2 fun k _ => k.isWord_text)
  rw [hline, values?, words_of_spaced hwords, List.mapM_map]
  exact mapM_eq_some fun k _ => signed?_dimacs_iff.2 k.signed_text

def rowsOf (model : List Lit) : List (List Int) :=
  (chunks litsPerLine model).map (List.map Lit.dimacs)

theorem mapM_values? (model : List Lit) :
    ((chunks litsPerLine model).map valueLine ++ ["v 0".toList]).mapM values? =
      some (rowsOf model ++ [[0]]) := by
  have hrows : ((chunks litsPerLine model).map valueLine).mapM values? = some (rowsOf model) := by
    rw [List.mapM_map]
    refine mapM_eq_some fun row hrow => values?_valueLine ?_
    exact List.ne_nil_of_length_pos (length_of_mem_chunks (by decide) hrow).1
  rw [List.mapM_append, hrows]
  rfl

theorem newline_not_mem_valueLine (row : List Lit) : '\n' ∉ valueLine row := by
  have htext (l : Lit) : '\n' ∉ l.text := l.not_mem_text (by decide)
  simp [valueLine, htext]

theorem newline_not_mem_linesOf {r : Result} {cs : List Char} (h : cs ∈ linesOf r) :
    '\n' ∉ cs := by
  cases r with
  | sat model =>
    simp only [linesOf, List.mem_cons, List.mem_append, List.mem_map, List.not_mem_nil,
      or_false] at h
    rcases h with rfl | ⟨row, -, rfl⟩ | rfl
    · decide
    · exact newline_not_mem_valueLine row
    · decide
  | unsat =>
    rw [List.mem_singleton.1 h]
    decide
  | unknown =>
    rw [List.mem_singleton.1 h]
    decide

theorem lines?_text (r : Result) : lines? r.text = some (linesOf r) := by
  rw [lines?, Result.text, unlines, toList_toUTF8_ofList,
    lines_encode fun cs => newline_not_mem_linesOf, List.mapM_map]
  exact (mapM_eq_some fun cs _ => decode?_encode cs).trans (by rw [List.map_id'])

end Lines

section Model

/-- Rows of up to ten integers that list the literals of a model in order. Only the last row may
be short, and none has a zero. -/
structure Wraps (model : List Lit) (rows : List (List Int)) : Prop where
  flatten : rows.flatten = model.map Lit.dimacs
  zero_not_mem : 0 ∉ rows.flatten
  length : ∀ row ∈ rows, 1 ≤ row.length ∧ row.length ≤ 10
  full : ∀ row ∈ rows.dropLast, row.length = 10

theorem flatten_rowsOf (model : List Lit) : (rowsOf model).flatten = model.map Lit.dimacs := by
  rw [rowsOf, ← List.map_flatten, flatten_chunks]

theorem zero_not_mem_dimacs (model : List Lit) : 0 ∉ model.map Lit.dimacs := by
  intro h
  obtain ⟨l, -, hl⟩ := List.mem_map.1 h
  exact l.dimacs_ne_zero hl

theorem wraps_rowsOf (model : List Lit) : Wraps model (rowsOf model) where
  flatten := flatten_rowsOf model
  zero_not_mem := flatten_rowsOf model ▸ zero_not_mem_dimacs model
  length := List.forall_mem_map.2 fun row hrow => by
    rw [List.length_map]
    exact length_of_mem_chunks (by decide) hrow
  full := by
    rw [rowsOf, ← List.map_dropLast]
    refine List.forall_mem_map.2 fun row hrow => ?_
    rw [List.length_map]
    exact length_of_mem_dropLast_chunks (by decide) hrow

theorem beforeZero?_append {ns : List Int} (h : 0 ∉ ns) : beforeZero? (ns ++ [0]) = some ns := by
  have hns : ∀ n ∈ ns, decide (n ≠ 0) = true := fun n hn =>
    decide_eq_true fun h0 => h (h0 ▸ hn)
  rw [beforeZero?, if_pos (by simp), List.takeWhile_append_of_pos hns]
  simp

theorem model?_valueLines (model : List Lit) :
    model? ((chunks litsPerLine model).map valueLine ++ ["v 0".toList]) = some model := by
  have hrows : (rowsOf model ++ [[0]]).flatten = model.map Lit.dimacs ++ [0] := by
    rw [List.flatten_append, flatten_rowsOf]
    rfl
  have hlits : (model.map Lit.dimacs).mapM Lit.ofDimacs? = some model := by
    rw [List.mapM_map]
    exact (mapM_eq_some fun l _ => Lit.ofDimacs?_dimacs l).trans (by rw [List.map_id'])
  rw [model?, mapM_values?]
  simp only [Option.bind_eq_bind, Option.bind_some, hrows,
    beforeZero?_append (zero_not_mem_dimacs model), hlits]

theorem read?_text (r : Result) : read? r.text = some r := by
  rw [read?, lines?_text]
  cases r with
  | sat model =>
    simp only [linesOf, ite_true, model?_valueLines]
    rfl
  | unsat => rfl
  | unknown => rfl

end Model

/-- The text of an answer is read back as that answer, a model of any length included, so no two
answers have the same text. The lines after a satisfiable status list the model ten literals to
the line, and the line after those has the only zero. -/
theorem text_decodes :
    (∀ r, read? r.text = some r) ∧
    (∀ model, ∃ ls rows,
      lines? (Result.sat model).text =
        some ("s SATISFIABLE".toList :: (ls ++ ["v 0".toList])) ∧
      (ls ++ ["v 0".toList]).mapM values? = some (rows ++ [[0]]) ∧ Wraps model rows) ∧
    Function.Injective Result.text := by
  refine ⟨read?_text, fun model => ?_, fun r s h => ?_⟩
  · exact ⟨_, rowsOf model, lines?_text (.sat model), mapM_values? model, wraps_rowsOf model⟩
  · have hr := read?_text r
    rw [h, read?_text] at hr
    exact (Option.some.inj hr).symm

end Solution
end DpllSat
