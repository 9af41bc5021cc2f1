import DpllSat.Dimacs.Reader
import DpllSat.Proofs.Text.Lines
import DpllSat.Proofs.Text.Numeral
import DpllSat.Proofs.Text.Words
import Mathlib.Data.List.Forall2

/-! The grammar of DIMACS texts, line by line. Only the lines before the first trailer count, and
of those only the ones that are neither blank nor a comment. -/
namespace DpllSat
namespace Dimacs

open Text

def Starts (c : Char) (cs : List Char) : Prop := (trim cs).head? = some c

instance (c : Char) (cs : List Char) : Decidable (Starts c cs) :=
  inferInstanceAs (Decidable (_ = _))

def Skipped (cs : List Char) : Prop := trim cs = [] ∨ Starts 'c' cs

instance (cs : List Char) : Decidable (Skipped cs) := inferInstanceAs (Decidable (_ ∨ _))

/-- The line ends the text: it can be decoded, and starts with a percent sign. -/
def Trailer (line : List UInt8) : Prop := ∃ cs, encode cs = line ∧ Starts '%' cs

instance (line : List UInt8) : Decidable (Trailer line) :=
  decidable_of_iff (∃ cs ∈ decode? line, Starts '%' cs) (by
    simp only [Option.mem_def, decode?_eq_some_iff, Trailer])

def active (lines : List (List UInt8)) : List (List UInt8) :=
  lines.takeWhile fun line => ¬ Trailer line

/-- The active lines can all be decoded, and `kept` are their texts without those skipped. -/
def Content (lines : List (List UInt8)) (kept : List (List Char)) : Prop :=
  ∃ texts : List (List Char), active lines = texts.map encode ∧
    texts.filter (fun cs => ¬ Skipped cs) = kept

/-- The words of a header that declares `v` variables and `n` clauses. -/
def HeaderWords (ws : List (List Char)) (v n : Nat) : Prop :=
  ∃ vw nw, ws = [['p'], ['c', 'n', 'f'], vw, nw] ∧ Unsigned vw v ∧ v ≤ maxVariable ∧
    Unsigned nw n ∧ n ≤ maxUnsigned64

/-- The words of a clause: the integers of its literals, and a zero after them. -/
def ClauseWords (ws : List (List Char)) (c : Clause) : Prop :=
  ∃ us z, ws = us ++ [z] ∧ List.Forall₂ (fun u l => Signed u l.dimacs) us c ∧ Signed z 0

def HeaderText (cs : List Char) (v n : Nat) : Prop := ∃ ws, Spaced cs ws ∧ HeaderWords ws v n

def ClauseText (cs : List Char) (c : Clause) : Prop :=
  ¬ Starts 'p' cs ∧ ∃ ws, Spaced cs ws ∧ ClauseWords ws c

def SpellsClauses (lines : List (List UInt8)) (f : Formula) : Prop :=
  ∃ kept, Content lines kept ∧ List.Forall₂ ClauseText kept f

/-- A text spells a formula: its lines are a header and then the clauses in order. How many
clauses the header declares does not matter. -/
def Spells (lines : List (List UInt8)) (r : Reading) : Prop :=
  ∃ header clauses, Content lines (header :: clauses) ∧
    HeaderText header r.cnf.numVars r.declared ∧ List.Forall₂ ClauseText clauses r.cnf.clauses

variable {cs : List Char} {line : List UInt8} {lines rest : List (List UInt8)}
  {kept : List (List Char)}

theorem Starts.eq {c d : Char} (hc : Starts c cs) (hd : Starts d cs) : c = d :=
  Option.some.inj (hc.symm.trans hd)

theorem Starts.not_skipped {c : Char} (hc : Starts c cs) (h : c ≠ 'c') : ¬ Skipped cs := by
  rintro (hs | hs)
  · rw [Starts, hs] at hc
    cases hc
  · exact h (hc.eq hs)

def Kept (cs : List Char) : Prop := ¬ Skipped cs ∧ ¬ Starts '%' cs

theorem Starts.kept_of_ne {c : Char} (hs : Starts c cs) (hc : c ≠ 'c') (ht : c ≠ '%') : Kept cs :=
  ⟨hs.not_skipped hc, fun h => ht (hs.eq h)⟩

theorem Starts.header_kept (hp : Starts 'p' cs) : Kept cs :=
  hp.kept_of_ne (by decide) (by decide)

theorem HeaderText.starts {v n : Nat} (h : HeaderText cs v n) : Starts 'p' cs := by
  obtain ⟨ws, hs, vw, nw, rfl, -⟩ := h
  exact head?_trim hs

theorem trailer_encode_iff : Trailer (encode cs) ↔ Starts '%' cs := by
  constructor
  · rintro ⟨ds, h, hd⟩
    exact encode_injective h ▸ hd
  · exact fun h => ⟨cs, rfl, h⟩

section Content

@[simp] theorem content_nil : Content [] kept ↔ kept = [] := by
  constructor
  · rintro ⟨texts, ht, rfl⟩
    rw [List.map_eq_nil_iff.1 ht.symm]
    rfl
  · rintro rfl
    exact ⟨[], rfl, rfl⟩

theorem content_of_trailer (h : Starts '%' cs) : Content (encode cs :: rest) kept ↔ kept = [] := by
  have ha : active (encode cs :: rest) = active [] := by
    simp [active, trailer_encode_iff.2 h]
  rw [← content_nil, Content, ha, Content]

theorem content_of_not_trailer (h : ¬ Trailer line) :
    Content (line :: rest) kept ↔ ∃ cs ks, encode cs = line ∧ Content rest ks ∧
      kept = if Skipped cs then ks else cs :: ks := by
  have ha : active (line :: rest) = line :: active rest := by simp [active, h]
  rw [Content, ha]
  constructor
  · rintro ⟨texts, ht, rfl⟩
    obtain ⟨cs, texts, rfl, hcs, hr⟩ := List.map_eq_cons_iff.1 ht.symm
    refine ⟨cs, _, hcs, ⟨texts, hr.symm, rfl⟩, ?_⟩
    by_cases hs : Skipped cs <;> simp [hs]
  · rintro ⟨cs, _, rfl, ⟨texts, ht, rfl⟩, rfl⟩
    refine ⟨cs :: texts, by rw [ht, List.map_cons], ?_⟩
    by_cases hs : Skipped cs <;> simp [hs]

theorem content_of_skipped (h : Skipped cs) :
    Content (encode cs :: rest) kept ↔ Content rest kept := by
  have ht : ¬ Trailer (encode cs) := fun ht =>
    (trailer_encode_iff.1 ht).not_skipped (by decide) h
  rw [content_of_not_trailer ht]
  constructor
  · rintro ⟨ds, ks, hds, hks, rfl⟩
    rw [encode_injective hds, if_pos h]
    exact hks
  · exact fun hk => ⟨cs, kept, rfl, hk, by rw [if_pos h]⟩

theorem content_of_kept (h : Kept cs) :
    Content (encode cs :: rest) kept ↔ ∃ ks, kept = cs :: ks ∧ Content rest ks := by
  rw [content_of_not_trailer (trailer_encode_iff.not.2 h.2)]
  constructor
  · rintro ⟨ds, ks, hds, hks, rfl⟩
    rw [encode_injective hds, if_neg h.1]
    exact ⟨ks, rfl, hks⟩
  · rintro ⟨ks, rfl, hk⟩
    exact ⟨cs, ks, rfl, hk, by rw [if_neg h.1]⟩

theorem content_append_nil : Content (lines ++ [[]]) kept ↔ Content lines kept := by
  have hnil : Skipped [] := Or.inl rfl
  induction lines generalizing kept with
  | nil => exact content_of_skipped hnil
  | cons line rest ih =>
    rw [List.cons_append]
    by_cases ht : Trailer line
    · obtain ⟨cs, rfl, ht⟩ := ht
      rw [content_of_trailer ht, content_of_trailer ht]
    · simp only [content_of_not_trailer ht, ih]

theorem Content.length_le (h : Content lines kept) : kept.length ≤ lines.length := by
  obtain ⟨texts, ht, rfl⟩ := h
  have ha : texts.length = (active lines).length := by rw [ht, List.length_map]
  have hle : (active lines).length ≤ lines.length := (List.takeWhile_prefix _).length_le
  have hf := List.length_filter_le (fun cs => ¬ Skipped cs) texts
  omega

theorem Content.encode_mem (h : Content lines kept) (hcs : cs ∈ kept) : encode cs ∈ lines := by
  obtain ⟨texts, ht, rfl⟩ := h
  have hactive : encode cs ∈ active lines := by
    rw [ht]
    exact List.mem_map_of_mem (List.mem_filter.1 hcs).1
  exact (List.takeWhile_prefix _).subset hactive

theorem spellsClauses_of_kept (h : Kept cs) {f : Formula} :
    SpellsClauses (encode cs :: rest) f ↔
      ∃ c g, ClauseText cs c ∧ SpellsClauses rest g ∧ c :: g = f := by
  simp only [SpellsClauses, content_of_kept h]
  constructor
  · rintro ⟨_, ⟨ks, rfl, hks⟩, hf⟩
    obtain ⟨c, g, hc, hg, rfl⟩ := List.forall₂_cons_left_iff.1 hf
    exact ⟨c, g, hc, ⟨ks, hks, hg⟩, rfl⟩
  · rintro ⟨c, g, hc, ⟨ks, hks, hg⟩, rfl⟩
    exact ⟨cs :: ks, ⟨ks, rfl, hks⟩, .cons hc hg⟩

/-- The first text that is kept has to be the header. -/
theorem spells_of_kept (h : Kept cs) {r : Reading} :
    Spells (encode cs :: rest) r ↔
      HeaderText cs r.cnf.numVars r.declared ∧ SpellsClauses rest r.cnf.clauses := by
  simp only [Spells, content_of_kept h]
  constructor
  · rintro ⟨header, clauses, ⟨ks, heq, hrest⟩, hh, hf⟩
    cases heq
    exact ⟨hh, clauses, hrest, hf⟩
  · rintro ⟨hh, ks, hrest, hf⟩
    exact ⟨cs, ks, ⟨ks, rfl, hrest⟩, hh, hf⟩

end Content

end Dimacs
end DpllSat
