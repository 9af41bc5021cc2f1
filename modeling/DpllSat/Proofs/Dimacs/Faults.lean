import DpllSat.Proofs.Dimacs.Reading

/-! What can be wrong with the words of a header and of a clause, and that the reader finds just
that. Of several things that are wrong with a clause, a word that is no integer comes first, a
missing zero at the end second, and then the leftmost word that is no literal. -/
namespace DpllSat
namespace Dimacs

open Text

/-- The word is an integer that fits a signed 64-bit word. -/
def IsInteger (w : List Char) : Prop :=
  ∃ i, Signed w i ∧ -(maxSigned64 : Int) - 1 ≤ i ∧ i ≤ maxSigned64

/-- The word is the integer of a literal. -/
def IsLiteral (w : List Char) : Prop := ∃ l : Lit, Signed w l.dimacs

inductive HeaderFlaw : List (List Char) → HeaderFault → Prop
  | shape {ws : List (List Char)} : (∀ format vars clauses, ws ≠ [['p'], format, vars, clauses]) →
    HeaderFlaw ws .shape
  | format {format vars clauses : List Char} : format ≠ ['c', 'n', 'f'] →
    HeaderFlaw [['p'], format, vars, clauses] .format
  | variableCount {vars clauses : List Char} : (∀ v, Unsigned vars v → maxUnsigned32 < v) →
    HeaderFlaw [['p'], ['c', 'n', 'f'], vars, clauses] .variableCount
  | variableRange {vars clauses : List Char} {v : Nat} : Unsigned vars v → maxVariable < v →
    v ≤ maxUnsigned32 → HeaderFlaw [['p'], ['c', 'n', 'f'], vars, clauses] .variableRange
  | clauseCount {vars clauses : List Char} {v : Nat} : Unsigned vars v → v ≤ maxVariable →
    (∀ n, Unsigned clauses n → maxUnsigned64 < n) →
    HeaderFlaw [['p'], ['c', 'n', 'f'], vars, clauses] .clauseCount

inductive ClauseFlaw : List (List Char) → ClauseFault → Prop
  | notInteger {us vs : List (List Char)} {w : List Char} :
    (∀ u ∈ us, IsInteger u) → ¬ IsInteger w → ClauseFlaw (us ++ w :: vs) (.badLiteral w)
  | notTerminated {ws : List (List Char)} :
    (∀ w ∈ ws, IsInteger w) → (∀ us z, ws = us ++ [z] → ¬ Signed z 0) →
    ClauseFlaw ws .missingTerminator
  | zeroInside {us vs : List (List Char)} {w z : List Char} :
    (∀ v ∈ us ++ w :: vs, IsInteger v) → Signed z 0 → (∀ u ∈ us, IsLiteral u) → Signed w 0 →
    ClauseFlaw (us ++ w :: vs ++ [z]) .zeroInsideClause
  | outOfRange {us vs : List (List Char)} {w z : List Char} {i : Int} :
    (∀ v ∈ us ++ w :: vs, IsInteger v) → Signed z 0 → (∀ u ∈ us, IsLiteral u) → Signed w i →
    maxVariable < i.natAbs → ClauseFlaw (us ++ w :: vs ++ [z]) (.badLiteral w)

theorem unsigned?_eq_none_iff {bound : Nat} {cs : List Char} :
    unsigned? bound cs = none ↔ ∀ n, Unsigned cs n → bound < n := by
  simp only [Option.eq_none_iff_forall_ne_some, ne_eq, unsigned?_eq_some_iff, not_and, not_le]

theorem header?_of_flaw {ws : List (List Char)} {fault : HeaderFault} (h : HeaderFlaw ws fault) :
    header? ws = .error fault := by
  cases h with
  | shape hws =>
    unfold header?
    split
    · rename_i p format vars clauses
      have hp : p ≠ ['p'] := fun hp => hws format vars clauses (by rw [hp])
      rw [if_pos hp]
    · rfl
  | format hf => simp [header?, hf]
  | variableCount hv => simp [header?, unsigned?_eq_none_iff.2 hv]
  | variableRange hv hmax hbound => simp [header?, unsigned?_eq_some_iff.2 ⟨hv, hbound⟩, hmax]
  | clauseCount hv hmax hn =>
    have hbound := Nat.le_trans hmax (by decide : maxVariable ≤ maxUnsigned32)
    simp [header?, unsigned?_eq_some_iff.2 ⟨hv, hbound⟩, Nat.not_lt.2 hmax,
      unsigned?_eq_none_iff.2 hn]

theorem exists_headerFlaw {ws : List (List Char)} (h : ∀ v n, ¬ HeaderWords ws v n) :
    ∃ fault, HeaderFlaw ws fault := by
  by_cases hshape : ∃ format vars clauses, ws = [['p'], format, vars, clauses]
  · obtain ⟨format, vars, clauses, rfl⟩ := hshape
    by_cases hformat : format = ['c', 'n', 'f']
    · subst hformat
      by_cases hv : ∃ v, Unsigned vars v ∧ v ≤ maxUnsigned32
      · obtain ⟨v, hv, hbound⟩ := hv
        by_cases hmax : maxVariable < v
        · exact ⟨_, .variableRange hv hmax hbound⟩
        · have hmax := Nat.le_of_not_lt hmax
          refine ⟨_, .clauseCount hv hmax fun n hn => Nat.lt_of_not_le fun hle => ?_⟩
          exact h v n ⟨vars, clauses, rfl, hv, hmax, hn, hle⟩
      · refine ⟨_, .variableCount fun v hu => Nat.lt_of_not_le fun hle => ?_⟩
        exact hv ⟨v, hu, hle⟩
    · exact ⟨_, .format hformat⟩
  · exact ⟨_, .shape fun format vars clauses hws => hshape ⟨format, vars, clauses, hws⟩⟩

theorem header?_eq_error_iff {ws : List (List Char)} {fault : HeaderFault} :
    header? ws = .error fault ↔ HeaderFlaw ws fault := by
  constructor
  · intro h
    have hnone (v n : Nat) : ¬ HeaderWords ws v n := fun hw => by
      rw [header?_eq_ok_iff.2 hw] at h
      cases h
    obtain ⟨fault', hflaw⟩ := exists_headerFlaw hnone
    cases h.symm.trans (header?_of_flaw hflaw)
    exact hflaw
  · exact header?_of_flaw

theorem exists_headerFlaw_iff {ws : List (List Char)} :
    (∃ fault, HeaderFlaw ws fault) ↔ ¬ ∃ v n, HeaderWords ws v n := by
  simp only [← header?_eq_error_iff, ← header?_eq_ok_iff]
  cases header? ws with
  | error fault => simp
  | ok h => simpa using ⟨h.numVars, h.numClauses, rfl⟩

/-- A list is gone through up to the first element that fails. -/
theorem mapM_eq_error_iff {α β ε : Type} {f : α → Except ε β} {xs : List α} {e : ε} :
    xs.mapM f = .error e ↔
      ∃ us x vs, xs = us ++ x :: vs ∧ (∀ u ∈ us, ∃ y, f u = .ok y) ∧ f x = .error e := by
  induction xs with
  | nil => simp [pure, Except.pure]
  | cons x xs ih =>
    rw [List.mapM_cons]
    cases hx : f x with
    | error d =>
      constructor
      · intro h
        cases h
        exact ⟨[], x, xs, rfl, by simp, hx⟩
      · rintro ⟨us, w, vs, he, hus, hw⟩
        cases us with
        | nil =>
          cases he
          cases hx.symm.trans hw
          rfl
        | cons u us =>
          cases he
          obtain ⟨y, hy⟩ := hus _ List.mem_cons_self
          cases hx.symm.trans hy
    | ok y =>
      have hbind : (Except.ok y >>= fun y => xs.mapM f >>= fun ys => pure (y :: ys)) = .error e ↔
          xs.mapM f = .error e := by
        cases xs.mapM f <;> simp [bind, Except.bind, pure, Except.pure]
      rw [hbind, ih]
      constructor
      · rintro ⟨us, w, vs, rfl, hus, hw⟩
        exact ⟨x :: us, w, vs, rfl, List.forall_mem_cons.2 ⟨⟨y, hx⟩, hus⟩, hw⟩
      · rintro ⟨us, w, vs, he, hus, hw⟩
        cases us with
        | nil =>
          cases he
          cases hx.symm.trans hw
        | cons u us =>
          cases he
          exact ⟨us, w, vs, rfl, (List.forall_mem_cons.1 hus).2, hw⟩

def integer? (w : List Char) : Except ClauseFault (Int × List Char) :=
  match signed? maxSigned64 w with
  | none => .error (.badLiteral w)
  | some n => .ok (n, w)

def literal? (v : Int × List Char) : Except ClauseFault Lit :=
  if v.1 = 0 then .error .zeroInsideClause
  else match Lit.ofDimacs? v.1 with
    | none => .error (.badLiteral v.2)
    | some l => .ok l

theorem integers?_eq_mapM (ws : List (List Char)) : integers? ws = ws.mapM integer? := by
  induction ws with
  | nil => rfl
  | cons w ws ih =>
    rw [List.mapM_cons, ← ih, integers?, integer?]
    cases signed? maxSigned64 w with
    | none => rfl
    | some n => cases integers? ws <;> rfl

theorem literals?_eq_mapM (vs : List (Int × List Char)) : literals? vs = vs.mapM literal? := by
  induction vs with
  | nil => rfl
  | cons v vs ih =>
    obtain ⟨n, w⟩ := v
    rw [List.mapM_cons, ← ih, literals?, literal?]
    by_cases hn : n = 0
    · simp only [if_pos hn]
      rfl
    · simp only [if_neg hn]
      cases Lit.ofDimacs? n with
      | none => rfl
      | some l => cases literals? vs <;> rfl

theorem isInteger_iff {w : List Char} : IsInteger w ↔ ∃ i, signed? maxSigned64 w = some i := by
  simp only [IsInteger, signed?_eq_some_iff]

theorem integer?_eq_ok_iff {w : List Char} {v : Int × List Char} :
    integer? w = .ok v ↔ v.2 = w ∧ signed? maxSigned64 w = some v.1 := by
  obtain ⟨n, u⟩ := v
  unfold integer?
  cases signed? maxSigned64 w with
  | none => simp
  | some m => simp [eq_comm, and_comm]

theorem integer?_eq_error_iff {w : List Char} {e : ClauseFault} :
    integer? w = .error e ↔ ¬ IsInteger w ∧ e = .badLiteral w := by
  rw [isInteger_iff, integer?]
  cases signed? maxSigned64 w with
  | none => simp [eq_comm]
  | some m => simp

theorem literal?_eq_ok_iff {v : Int × List Char} {l : Lit} :
    literal? v = .ok l ↔ l.dimacs = v.1 := by
  unfold literal?
  by_cases hn : v.1 = 0
  · simp [hn, l.dimacs_ne_zero]
  · rw [if_neg hn, ← Lit.ofDimacs?_eq_some_iff]
    cases Lit.ofDimacs? v.1 <;> simp

theorem literal?_eq_error_iff {v : Int × List Char} {e : ClauseFault} :
    literal? v = .error e ↔ v.1 = 0 ∧ e = .zeroInsideClause ∨
      maxVariable < v.1.natAbs ∧ e = .badLiteral v.2 := by
  unfold literal?
  by_cases hn : v.1 = 0
  · simp [hn, eq_comm]
  · have hrange : Lit.ofDimacs? v.1 = none ↔ maxVariable < v.1.natAbs := by
      rw [Lit.ofDimacs?_eq_none_iff, or_iff_right hn]
    rw [if_neg hn, ← hrange]
    cases Lit.ofDimacs? v.1 <;> simp [hn, eq_comm]

theorem integers?_eq_error_iff {ws : List (List Char)} {e : ClauseFault} :
    integers? ws = .error e ↔ ∃ us w vs, ws = us ++ w :: vs ∧ (∀ u ∈ us, IsInteger u) ∧
      ¬ IsInteger w ∧ e = .badLiteral w := by
  have hok (u : List Char) : (∃ v, integer? u = .ok v) ↔ IsInteger u := by
    simp only [integer?_eq_ok_iff, isInteger_iff]
    constructor
    · rintro ⟨v, -, h⟩
      exact ⟨v.1, h⟩
    · rintro ⟨i, h⟩
      exact ⟨(i, u), rfl, h⟩
  simp only [integers?_eq_mapM, mapM_eq_error_iff, hok, integer?_eq_error_iff]

theorem isInteger_of_integers? {ws : List (List Char)} {vs : List (Int × List Char)}
    (h : integers? ws = .ok vs) : ∀ w ∈ ws, IsInteger w := by
  obtain ⟨rfl, hvs⟩ := integers?_eq_ok_iff.1 h
  rw [List.forall_mem_map]
  exact fun v hv => isInteger_iff.2 ⟨v.1, hvs v hv⟩

theorem exists_integers? {ws : List (List Char)} (h : ∀ w ∈ ws, IsInteger w) :
    ∃ vs, integers? ws = .ok vs := by
  cases hi : integers? ws with
  | ok vs => exact ⟨vs, rfl⟩
  | error e =>
    obtain ⟨us, w, vs, rfl, -, hw, -⟩ := integers?_eq_error_iff.1 hi
    exact absurd (h w (by simp)) hw

theorem literals?_eq_error_iff {ws : List (List Char)} {vs : List (Int × List Char)}
    {e : ClauseFault} (h : integers? ws = .ok vs) :
    literals? vs = .error e ↔ ∃ us w rest, ws = us ++ w :: rest ∧ (∀ u ∈ us, IsLiteral u) ∧
      (Signed w 0 ∧ e = .zeroInsideClause ∨
        ∃ i, Signed w i ∧ maxVariable < i.natAbs ∧ e = .badLiteral w) := by
  obtain ⟨rfl, hvs⟩ := integers?_eq_ok_iff.1 h
  have hsigned : ∀ v ∈ vs, Signed v.2 v.1 := fun v hv => (signed?_eq_some_iff.1 (hvs v hv)).1
  rw [literals?_eq_mapM, mapM_eq_error_iff]
  constructor
  · rintro ⟨us, v, rest, rfl, hus, hv⟩
    obtain ⟨hsu, hsv⟩ := List.forall_mem_append.1 hsigned
    have hv' := hsv v List.mem_cons_self
    refine ⟨us.map Prod.snd, v.2, rest.map Prod.snd, by simp, List.forall_mem_map.2 ?_, ?_⟩
    · intro u hu
      obtain ⟨l, hl⟩ := hus u hu
      exact ⟨l, literal?_eq_ok_iff.1 hl ▸ hsu u hu⟩
    · rcases literal?_eq_error_iff.1 hv with ⟨hz, he⟩ | ⟨hmax, he⟩
      · exact Or.inl ⟨hz ▸ hv', he⟩
      · exact Or.inr ⟨v.1, hv', hmax, he⟩
  · rintro ⟨us, w, rest, heq, hus, hw⟩
    obtain ⟨us, tail, rfl, rfl, htail⟩ := List.map_eq_append_iff.1 heq
    obtain ⟨v, rest, rfl, rfl, rfl⟩ := List.map_eq_cons_iff.1 htail
    obtain ⟨hsu, hsv⟩ := List.forall_mem_append.1 hsigned
    have hv := hsv v List.mem_cons_self
    refine ⟨us, v, rest, rfl, fun u hu => ?_, literal?_eq_error_iff.2 ?_⟩
    · obtain ⟨l, hl⟩ := List.forall_mem_map.1 hus u hu
      exact ⟨l, literal?_eq_ok_iff.2 (hl.unique (hsu u hu))⟩
    · rcases hw with ⟨hz, he⟩ | ⟨i, hi, hmax, he⟩
      · exact Or.inl ⟨hv.unique hz, he⟩
      · exact Or.inr ⟨hi.unique hv ▸ hmax, he⟩

/-- If all words are integers then it depends on the last one whether the others are read. -/
theorem clause?_concat {us : List (List Char)} {z : List Char} {vs : List (Int × List Char)}
    {i : Int} (hus : integers? us = .ok vs) (hz : signed? maxSigned64 z = some i) :
    clause? (us ++ [z]) = if i = 0 then literals? vs else .error .missingTerminator := by
  have hall : integers? (us ++ [z]) = .ok (vs ++ [(i, z)]) := by
    obtain ⟨rfl, hvs⟩ := integers?_eq_ok_iff.1 hus
    exact integers?_eq_ok_iff.2 ⟨by simp, List.forall_mem_append.2 ⟨hvs, by simpa using hz⟩⟩
  by_cases hi : i = 0
  · subst hi
    simp [clause?, hall]
  · simp [clause?, hall, hi]

theorem flaw_of_clause? {ws : List (List Char)} {e : ClauseFault} (h : clause? ws = .error e) :
    ClauseFlaw ws e := by
  cases hints : integers? ws with
  | error d =>
    obtain ⟨us, w, vs, rfl, hus, hw, rfl⟩ := integers?_eq_error_iff.1 hints
    rw [clause?, hints] at h
    cases h
    exact .notInteger hus hw
  | ok vs =>
    have hws := isInteger_of_integers? hints
    rcases List.eq_nil_or_concat' ws with rfl | ⟨us, z, rfl⟩
    · cases h
      exact .notTerminated hws (by simp)
    · obtain ⟨hus, hz⟩ := List.forall_mem_append.1 hws
      obtain ⟨us', hus'⟩ := exists_integers? hus
      obtain ⟨i, hi⟩ := isInteger_iff.1 (hz z (by simp))
      have hsigned := (signed?_eq_some_iff.1 hi).1
      rw [clause?_concat hus' hi] at h
      by_cases hzero : i = 0
      · subst hzero
        rw [if_pos rfl, literals?_eq_error_iff hus'] at h
        obtain ⟨us, w, rest, rfl, hlits, ⟨hw, rfl⟩ | ⟨j, hw, hmax, rfl⟩⟩ := h
        · exact .zeroInside hus hsigned hlits hw
        · exact .outOfRange hus hsigned hlits hw hmax
      · rw [if_neg hzero] at h
        cases h
        refine .notTerminated hws fun us' z' heq hz' => hzero ?_
        obtain ⟨-, rfl⟩ := List.append_singleton_inj.1 heq
        exact hsigned.unique hz'

theorem clause?_of_flaw {ws : List (List Char)} {e : ClauseFault} (h : ClauseFlaw ws e) :
    clause? ws = .error e := by
  have hzero {z : List Char} (hz : Signed z 0) : signed? maxSigned64 z = some 0 :=
    signed?_eq_some_iff.2 ⟨hz, by decide, by decide⟩
  cases h with
  | notInteger hus hw => simp [clause?, integers?_eq_error_iff.2 ⟨_, _, _, rfl, hus, hw, rfl⟩]
  | notTerminated hws hlast =>
    rcases List.eq_nil_or_concat' ws with rfl | ⟨us, z, rfl⟩
    · rfl
    · obtain ⟨hus, hz⟩ := List.forall_mem_append.1 hws
      obtain ⟨vs, hvs⟩ := exists_integers? hus
      obtain ⟨i, hi⟩ := isInteger_iff.1 (hz z (by simp))
      have hi0 : i ≠ 0 := fun h0 => hlast us z rfl (h0 ▸ (signed?_eq_some_iff.1 hi).1)
      rw [clause?_concat hvs hi, if_neg hi0]
  | zeroInside hvs hz hus hw =>
    obtain ⟨vals, hvals⟩ := exists_integers? hvs
    rw [clause?_concat hvals (hzero hz), if_pos rfl]
    exact (literals?_eq_error_iff hvals).2 ⟨_, _, _, rfl, hus, Or.inl ⟨hw, rfl⟩⟩
  | outOfRange hvs hz hus hw hmax =>
    obtain ⟨vals, hvals⟩ := exists_integers? hvs
    rw [clause?_concat hvals (hzero hz), if_pos rfl]
    exact (literals?_eq_error_iff hvals).2 ⟨_, _, _, rfl, hus, Or.inr ⟨_, hw, hmax, rfl⟩⟩

/-- A clause is refused just for what is wrong with its words, the most urgent first. -/
theorem clause?_eq_error_iff {ws : List (List Char)} {e : ClauseFault} :
    clause? ws = .error e ↔ ClauseFlaw ws e :=
  ⟨flaw_of_clause?, clause?_of_flaw⟩

theorem exists_clauseFlaw_iff {ws : List (List Char)} :
    (∃ fault, ClauseFlaw ws fault) ↔ ¬ ∃ c, ClauseWords ws c := by
  simp only [← clause?_eq_error_iff, ← clause?_eq_ok_iff]
  cases clause? ws <;> simp

end Dimacs
end DpllSat
