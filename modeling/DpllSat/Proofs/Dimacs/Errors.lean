import DpllSat.Proofs.Dimacs.Faults

/-! Which error the reader reports. Reading stops at the first line that is a trailer or at fault,
and a line is at fault for its own text and for whether a header came before it, so the error
names that line and does not depend on the bytes after it. -/
namespace DpllSat
namespace Dimacs

open Text

def HeaderLine (line : List UInt8) : Prop := ∃ cs, encode cs = line ∧ Starts 'p' cs

instance (line : List UInt8) : Decidable (HeaderLine line) :=
  decidable_of_iff (∃ cs ∈ decode? line, Starts 'p' cs) (by
    simp only [Option.mem_def, decode?_eq_some_iff, HeaderLine])

def Headed (lines : List (List UInt8)) : Prop := ∃ line ∈ lines, HeaderLine line

instance (lines : List (List UInt8)) : Decidable (Headed lines) :=
  inferInstanceAs (Decidable (∃ line ∈ lines, HeaderLine line))

/-- The error of a line that is at fault where the given lines came before it. -/
inductive Offends (before : List (List UInt8)) : List UInt8 → ReadError → Prop
  | notUtf8 {line : List UInt8} : (∀ cs, encode cs ≠ line) → Offends before line (.file .notUtf8)
  | duplicateHeader {cs : List Char} : Headed before → Starts 'p' cs →
    Offends before (encode cs) (.duplicateHeader (before.length + 1))
  | badHeader {cs : List Char} {ws : List (List Char)} {fault : HeaderFault} : ¬ Headed before →
    Starts 'p' cs → Spaced cs ws → HeaderFlaw ws fault →
    Offends before (encode cs) (.badHeader (before.length + 1) fault)
  | missingHeader {cs : List Char} : ¬ Headed before → Kept cs → ¬ Starts 'p' cs →
    Offends before (encode cs) (.missingHeader (before.length + 1))
  | clause {cs : List Char} {ws : List (List Char)} {fault : ClauseFault} : Headed before →
    Kept cs → ¬ Starts 'p' cs → Spaced cs ws → ClauseFlaw ws fault →
    Offends before (encode cs) (fault.at (before.length + 1))

def Stops (before : List (List UInt8)) (line : List UInt8) : Prop :=
  Trailer line ∨ ∃ e, Offends before line e

def Passed (lines : List (List UInt8)) : Prop :=
  ∀ before line after, lines = before ++ line :: after → ¬ Stops before line

/-- How the reading of `rest` ends, the formula apart, if the lines `before` have been read. -/
def outcome (before rest : List (List UInt8)) : Except ReadError Unit :=
  if Headed before then (clausesFrom (before.length + 1) rest).map fun _ => ()
  else (readFrom (before.length + 1) rest).map fun _ => ()

section Step

variable {before rest : List (List UInt8)} {line : List UInt8} {cs : List Char}

theorem headerLine_encode_iff : HeaderLine (encode cs) ↔ Starts 'p' cs := by
  constructor
  · rintro ⟨ds, h, hd⟩
    exact encode_injective h ▸ hd
  · exact fun h => ⟨cs, rfl, h⟩

theorem headed_concat : Headed (before ++ [line]) ↔ Headed before ∨ HeaderLine line := by
  simp [Headed, or_and_right, exists_or]

theorem Kind.unique {j k : Line} (hj : Kind cs j) (hk : Kind cs k) : j = k := by
  cases hj <;> cases hk <;> grind [Kept, Starts.eq, Starts.not_skipped]

theorem Kind.ofBytes? {k : Line} (h : Kind cs k) : Line.ofBytes? (encode cs) = some k := by
  rw [Line.ofBytes?, decode?_encode, Option.map_some, (kind_ofWords cs).unique h]

theorem ofBytes?_eq_none_iff : Line.ofBytes? line = none ↔ ∀ cs, encode cs ≠ line := by
  simp [Line.ofBytes?, Option.eq_none_iff_forall_ne_some, decode?_eq_some_iff]

theorem outcome_of_headed (h : Headed before) :
    outcome before rest = (clausesFrom (before.length + 1) rest).map fun _ => () :=
  if_pos h

theorem outcome_of_not_headed (h : ¬ Headed before) :
    outcome before rest = (readFrom (before.length + 1) rest).map fun _ => () :=
  if_neg h

theorem outcome_of_offends {e : ReadError} (h : Offends before line e) :
    outcome before (line :: rest) = .error e := by
  cases h with
  | notUtf8 hline =>
    have hl := ofBytes?_eq_none_iff.2 hline
    by_cases hh : Headed before
    · simp [outcome_of_headed hh, clausesFrom, hl, Except.map]
    · simp [outcome_of_not_headed hh, readFrom, hl, Except.map]
  | duplicateHeader hh hp =>
    simp [outcome_of_headed hh, clausesFrom, (Kind.header hp).ofBytes?, Except.map]
  | badHeader hh hp hs hfault =>
    rw [← words_of_spaced hs, ← header?_eq_error_iff] at hfault
    simp [outcome_of_not_headed hh, readFrom, (Kind.header hp).ofBytes?, hfault, Except.map]
  | missingHeader hh hk hp =>
    simp [outcome_of_not_headed hh, readFrom, (Kind.clause hk hp).ofBytes?, Except.map]
  | clause hh hk hp hs hfault =>
    rw [← words_of_spaced hs, ← clause?_eq_error_iff] at hfault
    simp [outcome_of_headed hh, clausesFrom, (Kind.clause hk hp).ofBytes?, hfault, Except.map]

theorem Offends.unique {d e : ReadError} (hd : Offends before line d) (he : Offends before line e) :
    d = e := by
  have h : outcome before [line] = .error d := outcome_of_offends hd
  exact Except.error.inj (h.symm.trans (outcome_of_offends he))

theorem headed_concat_of_not (h : ¬ HeaderLine line) :
    Headed (before ++ [line]) ↔ Headed before := by
  rw [headed_concat, or_iff_left h]

theorem outcome_of_trailer (h : Trailer line) :
    outcome before (line :: rest) = outcome (before ++ [line]) [] := by
  obtain ⟨cs, rfl, ht⟩ := h
  have hp : ¬ HeaderLine (encode cs) := fun hp =>
    absurd (ht.eq (headerLine_encode_iff.1 hp)) (by decide)
  simp only [outcome, headed_concat_of_not hp, clausesFrom, readFrom, (Kind.trailer ht).ofBytes?,
    List.length_append, List.length_singleton]

theorem outcome_of_skipped (hs : Skipped cs) :
    outcome before (encode cs :: rest) = outcome (before ++ [encode cs]) rest := by
  have hp : ¬ HeaderLine (encode cs) := fun hp =>
    (headerLine_encode_iff.1 hp).not_skipped (by decide) hs
  simp only [outcome, headed_concat_of_not hp, clausesFrom, readFrom, (Kind.skipped hs).ofBytes?,
    List.length_append, List.length_singleton]

theorem outcome_of_header {header : Header} (hh : ¬ Headed before) (hp : Starts 'p' cs)
    (hok : header? (words cs) = .ok header) :
    outcome before (encode cs :: rest) = outcome (before ++ [encode cs]) rest := by
  have hh' : Headed (before ++ [encode cs]) :=
    headed_concat.2 (Or.inr (headerLine_encode_iff.2 hp))
  rw [outcome_of_not_headed hh, outcome_of_headed hh', List.length_append, List.length_singleton]
  simp only [readFrom, (Kind.header hp).ofBytes?, hok]
  cases clausesFrom (before.length + 1 + 1) rest <;> rfl

theorem outcome_of_clause {c : Clause} (hh : Headed before) (hk : Kept cs) (hp : ¬ Starts 'p' cs)
    (hok : clause? (words cs) = .ok c) :
    outcome before (encode cs :: rest) = outcome (before ++ [encode cs]) rest := by
  have hh' : Headed (before ++ [encode cs]) := headed_concat.2 (Or.inl hh)
  rw [outcome_of_headed hh, outcome_of_headed hh', List.length_append, List.length_singleton]
  simp only [clausesFrom, (Kind.clause hk hp).ofBytes?, hok]
  cases clausesFrom (before.length + 1 + 1) rest <;> rfl

theorem outcome_of_not_stops (h : ¬ Stops before line) :
    outcome before (line :: rest) = outcome (before ++ [line]) rest := by
  obtain ⟨ht, hnone⟩ := not_or.1 h
  rw [not_exists] at hnone
  cases hl : Line.ofBytes? line with
  | none => exact absurd (.notUtf8 (ofBytes?_eq_none_iff.1 hl)) (hnone _)
  | some k =>
    obtain ⟨cs, rfl, hk⟩ := exists_kind hl
    cases hk with
    | skipped hs => exact outcome_of_skipped hs
    | trailer hs => exact absurd (trailer_encode_iff.2 hs) ht
    | header hp =>
      by_cases hh : Headed before
      · exact absurd (.duplicateHeader hh hp) (hnone _)
      · cases hw : header? (words cs) with
        | error fault =>
          exact absurd (.badHeader hh hp (spaced_words cs) (header?_eq_error_iff.1 hw)) (hnone _)
        | ok header => exact outcome_of_header hh hp hw
    | clause hk hp =>
      by_cases hh : Headed before
      · cases hc : clause? (words cs) with
        | error fault =>
          exact absurd (.clause hh hk hp (spaced_words cs) (clause?_eq_error_iff.1 hc)) (hnone _)
        | ok c => exact outcome_of_clause hh hk hp hc
      · exact absurd (.missingHeader hh hk hp) (hnone _)

end Step

section Run

theorem passed_concat_iff {lines : List (List UInt8)} {line : List UInt8} :
    Passed (lines ++ [line]) ↔ Passed lines ∧ ¬ Stops lines line := by
  constructor
  · intro h
    constructor
    · rintro before l after rfl
      exact h before l (after ++ [line]) (by simp)
    · exact h lines line [] rfl
  · rintro ⟨hlines, hline⟩ before l after heq
    rcases List.eq_nil_or_concat' after with rfl | ⟨after, last, rfl⟩
    · obtain ⟨rfl, rfl⟩ := List.append_singleton_inj.1 heq
      exact hline
    · rw [← List.cons_append, ← List.append_assoc] at heq
      exact hlines before l after (List.append_singleton_inj.1 heq).1

/-- If lines stop the reading then there is a first of them. -/
theorem passed_or_stops (lines : List (List UInt8)) :
    Passed lines ∨ ∃ before line after, lines = before ++ line :: after ∧ Passed before ∧
      Stops before line := by
  induction lines using List.reverseRecOn with
  | nil => exact Or.inl (by simp [Passed])
  | append_singleton lines line ih =>
    rcases ih with hlines | ⟨before, l, after, rfl, hbefore, hl⟩
    · by_cases hline : Stops lines line
      · exact Or.inr ⟨lines, line, [], rfl, hlines, hline⟩
      · exact Or.inl (passed_concat_iff.2 ⟨hlines, hline⟩)
    · exact Or.inr ⟨before, l, after ++ [line], by simp, hbefore, hl⟩

theorem outcome_append {before rest : List (List UInt8)} (h : Passed before) :
    outcome [] (before ++ rest) = outcome before rest := by
  induction before using List.reverseRecOn generalizing rest with
  | nil => rfl
  | append_singleton before line ih =>
    obtain ⟨hbefore, hline⟩ := passed_concat_iff.1 h
    rw [List.append_assoc, List.singleton_append, ih hbefore, outcome_of_not_stops hline]

/-- Where the reading ends well, nothing before the trailer stops it. -/
theorem passed_of_outcome {before rest : List (List UInt8)} (ht : ∀ line ∈ before, ¬ Trailer line)
    (h : outcome [] (before ++ rest) = .ok ()) : Passed before := by
  rcases passed_or_stops before with hp | ⟨us, line, vs, rfl, hus, hline⟩
  · exact hp
  · obtain ⟨e, he⟩ := hline.resolve_left (ht line (by simp))
    rw [List.append_assoc, outcome_append hus, List.cons_append, outcome_of_offends he] at h
    cases h

end Run

/-- If the lines have been read without a fault, all that can be missing is a header, and then it
is missing in the line after them. -/
def Completes (lines : List (List UInt8)) (result : Except ReadError Reading) : Prop :=
  if Headed lines then ∃ r, result = .ok r else result = .error (.missingHeader (lines.length + 1))

section Read

variable {bytes : List UInt8} {before rest : List (List UInt8)} {line : List UInt8}

theorem outcome_lines (bytes : List UInt8) :
    outcome [] (lines bytes) = (read bytes).map fun _ => () :=
  outcome_of_not_headed (by simp [Headed])

theorem read_of_offends {e : ReadError} (hlines : lines bytes = before ++ line :: rest)
    (hp : Passed before) (he : Offends before line e) : read bytes = .error e := by
  have h : (read bytes).map (fun _ => ()) = .error e := by
    rw [← outcome_lines, hlines, outcome_append hp, outcome_of_offends he]
  cases hr : read bytes with
  | error d =>
    rw [hr] at h
    cases h
    rfl
  | ok r =>
    rw [hr] at h
    cases h

theorem completes_of_outcome {lines : List (List UInt8)} {result : Except ReadError Reading}
    (h : (result.map fun _ => ()) = outcome lines []) : Completes lines result := by
  unfold Completes
  by_cases hh : Headed lines
  · rw [outcome_of_headed hh] at h
    cases result with
    | error e => cases h
    | ok r => exact (if_pos hh).mpr ⟨r, rfl⟩
  · rw [outcome_of_not_headed hh] at h
    cases result with
    | error e =>
      cases h
      exact (if_neg hh).mpr rfl
    | ok r => cases h

theorem completes_of_trailer (hlines : lines bytes = before ++ line :: rest) (hp : Passed before)
    (ht : Trailer line) : Completes (before ++ [line]) (read bytes) := by
  refine completes_of_outcome ?_
  rw [← outcome_lines, hlines, outcome_append hp, outcome_of_trailer ht]

theorem completes_of_passed (hp : Passed (lines bytes)) :
    Completes (lines bytes) (read bytes) := by
  refine completes_of_outcome ?_
  rw [← outcome_lines, ← outcome_append hp, List.append_nil]

/-- The text is the same up to the line feed that ends the line. -/
theorem lines_of_count {p q : List UInt8} (hlines : lines (p ++ 10 :: q) = before ++ line :: rest)
    (hcount : p.count 10 = before.length) (r : List UInt8) :
    lines (p ++ 10 :: r) = before ++ line :: lines r := by
  have hlen : (p.splitOn 10).length = (before ++ [line]).length := by
    rw [length_splitOn, hcount, List.length_append, List.length_singleton]
  have hp : p.splitOn 10 = before ++ [line] := by
    rw [lines_append, ← List.singleton_append, ← List.append_assoc] at hlines
    exact (List.append_inj hlines hlen).1
  rw [lines_append, hp, List.append_assoc, List.singleton_append]

/-- Either the reading passes all lines, or there is a first one that stops it. If that one is at
fault then its error is reported, and whatever follows its line feed makes no difference. -/
theorem read_names_first_offence (bytes : List UInt8) :
    (Passed (lines bytes) ∨ ∃ before line after, lines bytes = before ++ line :: after ∧
      Passed before ∧ Stops before line) ∧
    (∀ before line after, lines bytes = before ++ line :: after → Passed before →
      (∀ e, Offends before line e → read bytes = .error e ∧
        ∀ p q, bytes = p ++ 10 :: q → p.count 10 = before.length →
          ∀ r, read (p ++ 10 :: r) = .error e) ∧
      (Trailer line → Completes (before ++ [line]) (read bytes))) ∧
    (Passed (lines bytes) → Completes (lines bytes) (read bytes)) := by
  refine ⟨passed_or_stops _, fun before line after hlines hp => ?_, completes_of_passed⟩
  refine ⟨fun e he => ⟨read_of_offends hlines hp he, ?_⟩, completes_of_trailer hlines hp⟩
  rintro p q rfl hcount r
  exact read_of_offends (lines_of_count hlines hcount r) hp he

def calm : List (List UInt8) :=
  [['c'], [' ', 'p', '\t', 'c', 'n', 'f', ' ', '2', ' ', '1']].map encode

/-- A zero too early, an integer out of range, no zero at the end, and a word that hides all
that. -/
def tangled : List Char :=
  ['0', ' ', '3', '0', '0', '0', '0', '0', '0', '0', '0', '0', ' ', 'x', ' ', '1']

theorem headed_calm : Headed calm :=
  ⟨_, List.mem_cons_of_mem _ List.mem_cons_self, _, rfl, by decide⟩

theorem passed_calm : Passed calm := by
  have ht : ∀ line ∈ calm, ¬ Trailer line := by
    simp only [calm, List.forall_mem_map, trailer_encode_iff]
    decide
  have hok : outcome [] (calm ++ []) = .ok () := by
    rw [outcome_of_not_headed (by simp [Headed])]
    simp only [calm, List.map, List.append_nil, readFrom, clausesFrom, Line.ofBytes?,
      decode?_encode]
    rfl
  exact passed_of_outcome ht hok

theorem offends_tangled : Offends calm (encode tangled) (.badLiteral 3 ['x']) := by
  have hflaw : ClauseFlaw (words tangled) (.badLiteral ['x']) := clause?_eq_error_iff.1 rfl
  have hkept : Kept tangled := ⟨by decide, by decide⟩
  exact .clause headed_calm hkept (by decide) (spaced_words tangled) hflaw

theorem read_names_first_offence_tangled :
    (∀ r, read (calm.flatMap (· ++ [10]) ++ encode tangled ++ 10 :: r) =
      .error (.badLiteral 3 ['x'])) ∧
    (∃ r, read ((calm ++ [encode ['%']]).flatMap (· ++ [10])) = .ok r) ∧
    ∃ r, read (calm.flatMap (· ++ [10])) = .ok r := by
  have hlines (line : List UInt8) (h : ∀ l ∈ calm ++ [line], 10 ∉ l) :
      lines ((calm ++ [line]).flatMap (· ++ [10])) = calm ++ line :: [] := lines_flatMap h
  refine ⟨fun r => ?_, ?_, ?_⟩
  · obtain ⟨-, hfirst, -⟩ :=
      read_names_first_offence ((calm ++ [encode tangled]).flatMap (· ++ [10]))
    obtain ⟨he, -⟩ := hfirst calm _ [] (hlines (encode tangled) (by decide)) passed_calm
    exact (he _ offends_tangled).2 _ [] (by simp) (by decide) r
  · obtain ⟨-, hfirst, -⟩ :=
      read_names_first_offence ((calm ++ [encode ['%']]).flatMap (· ++ [10]))
    obtain ⟨-, ht⟩ := hfirst calm _ [] (hlines (encode ['%']) (by decide)) passed_calm
    have hc := ht (trailer_encode_iff.2 (by decide))
    rwa [Completes, if_pos (headed_concat.2 (Or.inl headed_calm))] at hc
  · have hcalm : lines (calm.flatMap (· ++ [10])) = calm := lines_flatMap (by decide)
    obtain ⟨-, -, hpass⟩ := read_names_first_offence (calm.flatMap (· ++ [10]))
    have hc := hpass (hcalm.symm ▸ passed_calm)
    rwa [Completes, hcalm, if_pos headed_calm] at hc

end Read

end Dimacs
end DpllSat
