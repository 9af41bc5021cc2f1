import DpllSat.Literal
import DpllSat.Text.Integer

/-! The texts of integers, with and without bounds, and the texts that are written. -/
namespace DpllSat
namespace Text

/-- The text consists of decimal digits, at least one, and `n` is their value. -/
structure Numeral (ds : List Char) (n : Nat) : Prop where
  ne_nil : ds ≠ []
  isDigit : ∀ d ∈ ds, d.isDigit = true
  value : Nat.ofDigitChars 10 ds 0 = n

def Unsigned (cs : List Char) (n : Nat) : Prop :=
  ∃ ds, (cs = ds ∨ cs = '+' :: ds) ∧ Numeral ds n

def Signed (cs : List Char) (i : Int) : Prop :=
  (∃ n, Unsigned cs n ∧ i = n) ∨ ∃ ds n, cs = '-' :: ds ∧ Numeral ds n ∧ i = -n

theorem digits?_eq_some_iff {ds : List Char} {n : Nat} : digits? ds = some n ↔ Numeral ds n := by
  unfold digits?
  split
  · rename_i h
    simp only [Bool.or_eq_true, Bool.not_eq_true', List.isEmpty_iff] at h
    refine iff_of_false (by simp) fun hn => ?_
    rcases h with h | h
    · exact hn.ne_nil h
    · simp [List.all_eq_true.2 hn.isDigit] at h
  · rename_i h
    simp only [Bool.or_eq_true, Bool.not_eq_true', not_or, Bool.not_eq_false,
      List.isEmpty_iff] at h
    simp only [Option.some.injEq]
    exact ⟨fun hn => ⟨h.1, List.all_eq_true.1 h.2, hn⟩, fun hn => hn.value⟩

theorem Numeral.ne_cons {c : Char} (hc : c.isDigit = false) {ds cs : List Char} {n : Nat}
    (h : Numeral ds n) : ds ≠ c :: cs := by
  rintro rfl
  simp [h.isDigit c List.mem_cons_self] at hc

theorem unsigned_cons_iff {cs : List Char} {n : Nat} : Unsigned ('+' :: cs) n ↔ Numeral cs n := by
  constructor
  · rintro ⟨ds, rfl | h, hd⟩
    · exact absurd rfl (hd.ne_cons (by decide))
    · cases h
      exact hd
  · exact fun h => ⟨cs, Or.inr rfl, h⟩

theorem unsigned_iff_of_ne {cs : List Char} (hc : ∀ ds, cs ≠ '+' :: ds) {n : Nat} :
    Unsigned cs n ↔ Numeral cs n := by
  constructor
  · rintro ⟨ds, rfl | h, hd⟩
    · exact hd
    · exact absurd h (hc ds)
  · exact fun h => ⟨cs, Or.inl rfl, h⟩

theorem unsigned?_eq_some_iff {bound : Nat} {cs : List Char} {n : Nat} :
    unsigned? bound cs = some n ↔ Unsigned cs n ∧ n ≤ bound := by
  unfold unsigned?
  split
  · simp [Option.filter_eq_some_iff, digits?_eq_some_iff, unsigned_cons_iff]
  · rename_i hc
    simp [Option.filter_eq_some_iff, digits?_eq_some_iff, unsigned_iff_of_ne hc]

theorem Unsigned.unique {cs : List Char} {m n : Nat} (hm : Unsigned cs m) (hn : Unsigned cs n) :
    m = n := by
  have h1 := unsigned?_eq_some_iff.2 ⟨hm, Nat.le_max_left m n⟩
  have h2 := unsigned?_eq_some_iff.2 ⟨hn, Nat.le_max_right m n⟩
  exact Option.some.inj (h1.symm.trans h2)

theorem signed_neg_iff {cs : List Char} {i : Int} :
    Signed ('-' :: cs) i ↔ ∃ n, Numeral cs n ∧ i = -n := by
  constructor
  · rintro (⟨n, ⟨ds, rfl | h, hd⟩, -⟩ | ⟨ds, n, h, hd, rfl⟩)
    · exact absurd rfl (hd.ne_cons (by decide))
    · cases h
    · cases h
      exact ⟨n, hd, rfl⟩
  · rintro ⟨n, hn, rfl⟩
    exact Or.inr ⟨cs, n, rfl, hn, rfl⟩

theorem signed_iff_of_ne {cs : List Char} (hc : ∀ ds, cs ≠ '-' :: ds) {i : Int} :
    Signed cs i ↔ ∃ n, Unsigned cs n ∧ i = n := by
  refine or_iff_left ?_
  rintro ⟨ds, n, h, -⟩
  exact hc ds h

/-- The lower bound says nothing here, and is the one that negative integers have. -/
theorem cast_digits?_eq_some_iff {bound : Nat} {ds : List Char} {i : Int} :
    ((digits? ds).filter (· ≤ bound) >>= fun n => pure (n : Int)) = some i ↔
      (∃ n, Numeral ds n ∧ i = n) ∧ -(bound : Int) - 1 ≤ i ∧ i ≤ bound := by
  simp only [bind, pure, Option.bind_eq_some_iff, Option.filter_eq_some_iff,
    digits?_eq_some_iff, decide_eq_true_eq, Option.some.injEq]
  constructor
  · rintro ⟨n, ⟨hn, hb⟩, rfl⟩
    exact ⟨⟨n, hn, rfl⟩, by omega, by omega⟩
  · rintro ⟨⟨n, hn, rfl⟩, -, hb⟩
    exact ⟨n, ⟨hn, by omega⟩, rfl⟩

theorem signed?_eq_some_iff {bound : Nat} {cs : List Char} {i : Int} :
    signed? bound cs = some i ↔ Signed cs i ∧ -(bound : Int) - 1 ≤ i ∧ i ≤ bound := by
  unfold signed?
  split
  · simp only [Option.map_eq_some_iff, cast_digits?_eq_some_iff, signed_neg_iff]
    constructor
    · rintro ⟨_, ⟨⟨n, hn, rfl⟩, -, hb⟩, rfl⟩
      exact ⟨⟨n, hn, rfl⟩, by omega, by omega⟩
    · rintro ⟨⟨n, hn, rfl⟩, h1, h2⟩
      exact ⟨n, ⟨⟨n, hn, rfl⟩, by omega, by omega⟩, rfl⟩
  · rw [Option.map_id', cast_digits?_eq_some_iff, signed_iff_of_ne (by simp)]
    simp only [unsigned_cons_iff]
  · rename_i hneg hpos
    rw [Option.map_id', cast_digits?_eq_some_iff, signed_iff_of_ne hneg]
    simp only [unsigned_iff_of_ne hpos]

theorem Signed.unique {cs : List Char} {i j : Int} (hi : Signed cs i) (hj : Signed cs j) :
    i = j := by
  have h1 : signed? (i.natAbs + j.natAbs) cs = some i :=
    signed?_eq_some_iff.2 ⟨hi, by omega, by omega⟩
  have h2 : signed? (i.natAbs + j.natAbs) cs = some j :=
    signed?_eq_some_iff.2 ⟨hj, by omega, by omega⟩
  exact Option.some.inj (h1.symm.trans h2)

theorem numeral_toDigits (n : Nat) : Numeral (Nat.toDigits 10 n) n :=
  digits?_eq_some_iff.1 (digits?_toDigits n)

theorem unsigned_toDigits (n : Nat) : Unsigned (Nat.toDigits 10 n) n :=
  ⟨_, Or.inl rfl, numeral_toDigits n⟩

/-- A number that is written out is read back unless it is beyond the bound. -/
theorem unsigned?_toDigits (bound n : Nat) :
    unsigned? bound (Nat.toDigits 10 n) = if bound < n then none else some n := by
  split
  · rename_i hn
    refine Option.eq_none_iff_forall_ne_some.2 fun m hm => ?_
    obtain ⟨hm, hb⟩ := unsigned?_eq_some_iff.1 hm
    exact absurd ((unsigned_toDigits n).unique hm) (by omega)
  · rename_i hn
    exact unsigned?_eq_some_iff.2 ⟨unsigned_toDigits n, Nat.le_of_not_lt hn⟩

end Text

theorem Lit.signed_text (l : Lit) : Text.Signed l.text l.dimacs := by
  unfold Lit.text Lit.dimacs
  split
  · exact Or.inl ⟨_, Text.unsigned_toDigits _, rfl⟩
  · exact Or.inr ⟨_, _, rfl, Text.numeral_toDigits _, rfl⟩

end DpllSat
