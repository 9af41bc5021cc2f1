import DpllSat.Proofs.Benchmark.LogText

/-! Reading a line of a results log. The file name comes first and may hold anything, separators
and labels included, so a line is taken apart from its end: the text of a model, if there is one,
then the status, and what is left is the name. -/
namespace DpllSat
namespace Benchmark

open Text

structure Entry where
  name : String
  status : Status
  model? : Option (List Lit)
  deriving DecidableEq

def Row.entry (row : Row) : Entry := ⟨row.fileName, row.status, row.model?⟩

def splitLast? (c : Char) : List Char → Option (List Char × List Char)
  | [] => none
  | d :: cs =>
    match splitLast? c cs with
    | some (front, rest) => some (d :: front, rest)
    | none => if d = c then some ([], cs) else none

theorem splitLast?_of_not_mem {c : Char} {cs : List Char} (h : c ∉ cs) :
    splitLast? c cs = none := by
  induction cs with
  | nil => rfl
  | cons d cs ih =>
    rw [List.mem_cons, not_or] at h
    obtain ⟨hne, hcs⟩ := h
    rw [splitLast?, ih hcs, if_neg (Ne.symm hne)]

theorem splitLast?_append {c : Char} {rest : List Char} (h : c ∉ rest) (front : List Char) :
    splitLast? c (front ++ c :: rest) = some (front, rest) := by
  induction front with
  | nil => rw [List.nil_append, splitLast?, splitLast?_of_not_mem h, if_pos rfl]
  | cons d front ih => rw [List.cons_append, splitLast?, ih]

theorem dropSuffix?_append (front rest : List Char) :
    (front ++ rest).dropSuffix? rest = some front :=
  List.dropSuffix?_eq_some_iff.2 ⟨rest, rfl, BEq.rfl⟩

namespace Status

def ofLabel? (cs : List Char) : Option Status :=
  [sat, unsat, unknown, parseError, internalError].find? fun s => s.label.toList = cs

theorem ofLabel?_label (s : Status) : ofLabel? s.label.toList = some s := by
  cases s <;> decide

theorem blank_not_mem_label (s : Status) : ' ' ∉ s.label.toList := by
  cases s <;> decide

end Status

namespace Entry

def literals? : List (List Char) → Option (List Lit)
  | w :: v :: ws => do
    let l ← (signed? maxSigned64 w).bind Lit.ofDimacs?
    let model ← literals? (v :: ws)
    some (l :: model)
  | ws => if ws = [[']']] then some [] else none

def outcome? (cs : List Char) : Option (String × Status) := do
  let (front, label) ← splitLast? ' ' cs
  let name ← front.dropSuffix? [' ', ':']
  let status ← Status.ofLabel? label
  some (String.ofList name, status)

/-- The entry that a line of the log gives. A line that ends in a bracket has a model. -/
def read? (line : String) : Option Entry :=
  let cs := line.toList
  if cs.getLast? = some ']' then do
    let (front, body) ← splitLast? '[' cs
    let model ← literals? (body.splitOn ',')
    let cs ← front.dropSuffix? [' ', ' ']
    let (name, status) ← outcome? cs
    some ⟨name, status, some model⟩
  else do
    let (name, status) ← outcome? cs
    some ⟨name, status, none⟩

def body (model : List Lit) : List Char := model.flatMap (fun l => l.text ++ [',']) ++ [']']

theorem opening_not_mem_body (model : List Lit) : '[' ∉ body model := by
  have htext (l : Lit) : '[' ∉ l.text := l.not_mem_text (by decide)
  simp [body, htext]

/-- A comma ends each literal, so no two of them run together. -/
theorem literals?_body (model : List Lit) : literals? ((body model).splitOn ',') = some model := by
  induction model with
  | nil => rfl
  | cons l model ih =>
    have hcomma : ',' ∉ l.text := l.not_mem_text (by decide)
    have hbody : body (l :: model) = l.text ++ ',' :: body model := by simp [body]
    have hlit : (signed? maxSigned64 l.text).bind Lit.ofDimacs? = some l := by
      rw [Dimacs.signed?_dimacs_iff.2 l.signed_text, Option.bind_some, Lit.ofDimacs?_dimacs]
    obtain ⟨v, ws, hws⟩ := List.exists_cons_of_ne_nil (List.splitOn_ne_nil ',' (body model))
    rw [hbody, List.splitOn_append_cons_self_of_not_mem hcomma, hws, literals?, ← hws, ih, hlit]
    rfl

theorem outcome?_append (name : String) (status : Status) :
    outcome? (name.toList ++ " : ".toList ++ status.label.toList) = some (name, status) := by
  have hsplit : name.toList ++ " : ".toList ++ status.label.toList =
      (name.toList ++ [' ', ':']) ++ ' ' :: status.label.toList := by simp
  rw [outcome?, hsplit, splitLast?_append status.blank_not_mem_label]
  simp only [Option.bind_eq_bind, Option.bind_some, dropSuffix?_append, Status.ofLabel?_label,
    String.ofList_toList]

theorem getLast?_label_ne (name : List Char) (status : Status) :
    (name ++ status.label.toList).getLast? ≠ some ']' := by
  rw [List.getLast?_append_of_ne_nil] <;> cases status <;> decide

theorem read?_logLine (row : Row) : read? row.logLine = some row.entry := by
  rw [read?, Row.toList_logLine, Row.entry]
  cases row.model? with
  | none =>
    rw [Row.modelPart, List.append_nil, if_neg (getLast?_label_ne _ _), outcome?_append]
    rfl
  | some model =>
    -- the last opening bracket is the model's own: those of the name are further left
    have hpart (front : List Char) : front ++ Row.modelPart (some model) =
        (front ++ [' ', ' ']) ++ '[' :: body model := by
      rw [List.append_assoc]
      rfl
    have hlast (front : List Char) : (front ++ '[' :: body model).getLast? = some ']' := by
      rw [body, ← List.cons_append, ← List.append_assoc, List.getLast?_concat]
    rw [hpart, if_pos (hlast _), splitLast?_append (opening_not_mem_body model)]
    simp only [Option.bind_eq_bind, Option.bind_some, literals?_body, dropSuffix?_append,
      outcome?_append]

/-- A name may look like a line of its own. -/
example : read? "a : SAT  [1,] : UNSAT" = some ⟨"a : SAT  [1,]", .unsat, none⟩ := by
  decide

end Entry

/-- Two rows have the same line only if they have the same file name, the same status and the same
model, where no model and an empty one differ. -/
theorem logLine_eq_iff (row row' : Row) : row.logLine = row'.logLine ↔
    row.fileName = row'.fileName ∧ row.status = row'.status ∧ row.model? = row'.model? := by
  constructor
  · intro h
    have hentry : some row.entry = some row'.entry := by
      rw [← Entry.read?_logLine, h, Entry.read?_logLine]
    exact Entry.mk.inj (Option.some.inj hentry)
  · rintro ⟨hname, hstatus, hmodel⟩
    rw [Row.logLine, Row.logLine, hname, hstatus, hmodel]

end Benchmark
end DpllSat
