import DpllSat.Text.Blank
import Mathlib.Data.List.DropRight

/-! What the words of a text are, and the text without the blanks around it. -/
namespace DpllSat
namespace Text

structure IsWord (w : List Char) : Prop where
  ne_nil : w ≠ []
  not_blank : ∀ c ∈ w, isBlank c = false

/-- The text consists of the words in order, each up to the next blank or to the end, and of
blanks. -/
inductive Spaced : List Char → List (List Char) → Prop
  | nil : Spaced [] []
  | blank {b : Char} {cs : List Char} {ws : List (List Char)} :
    isBlank b = true → Spaced cs ws → Spaced (b :: cs) ws
  | last {w : List Char} : IsWord w → Spaced w [w]
  | word {w : List Char} {b : Char} {cs : List Char} {ws : List (List Char)} :
    IsWord w → isBlank b = true → Spaced cs ws → Spaced (w ++ b :: cs) (w :: ws)

theorem Spaced.isWord {cs : List Char} {ws : List (List Char)} (h : Spaced cs ws) :
    ∀ w ∈ ws, IsWord w := by
  induction h with
  | nil => simp
  | blank _ _ ih => exact ih
  | last hw => simpa using hw
  | word hw _ _ ih => exact List.forall_mem_cons.2 ⟨hw, ih⟩

theorem words_of_spaced {cs : List Char} {ws : List (List Char)} (h : Spaced cs ws) :
    words cs = ws := by
  induction h with
  | nil => rfl
  | blank hb _ ih => simpa [words, List.splitOnP_cons_eq_if_modifyHead, hb] using ih
  | last hw =>
    rw [words, List.splitOnP_eq_singleton hw.not_blank]
    simp [hw.ne_nil]
  | word hw hb _ ih =>
    rw [words, List.splitOnP_append_cons_of_forall_mem hw.not_blank _ hb,
      List.filter_cons_of_pos (by simpa using hw.ne_nil)]
    exact congrArg _ ih

theorem IsWord.cons {c : Char} {w : List Char} (hc : isBlank c = false)
    (hw : ∀ d ∈ w, isBlank d = false) : IsWord (c :: w) :=
  ⟨List.cons_ne_nil c w, List.forall_mem_cons.2 ⟨hc, hw⟩⟩

/-- A character in front starts a word of its own or makes the first word longer. -/
theorem Spaced.exists_cons {c : Char} {cs : List Char} {ws : List (List Char)}
    (hc : isBlank c = false) (h : Spaced cs ws) : ∃ vs, Spaced (c :: cs) vs := by
  have hone : IsWord [c] := .cons hc (by simp)
  cases h with
  | nil => exact ⟨_, .last hone⟩
  | blank hb h => exact ⟨_, .word hone hb h⟩
  | last hw => exact ⟨_, .last (.cons hc hw.not_blank)⟩
  | word hw hb h => exact ⟨_, .word (.cons hc hw.not_blank) hb h⟩

theorem spaced_words (cs : List Char) : Spaced cs (words cs) := by
  have h : ∃ ws, Spaced cs ws := by
    induction cs with
    | nil => exact ⟨_, .nil⟩
    | cons c cs ih =>
      obtain ⟨ws, hws⟩ := ih
      cases hc : isBlank c with
      | true => exact ⟨ws, .blank hc hws⟩
      | false => exact hws.exists_cons hc
  obtain ⟨ws, hws⟩ := h
  exact words_of_spaced hws ▸ hws

def trim (cs : List Char) : List Char := (cs.dropWhile isBlank).rdropWhile isBlank

theorem head?_rdropWhile {p : Char → Bool} {c : Char} {cs : List Char} (hc : p c = false) :
    ((c :: cs).rdropWhile p).head? = some c := by
  have hpre := List.rdropWhile_prefix p (c :: cs)
  cases hr : (c :: cs).rdropWhile p with
  | nil =>
    have := List.rdropWhile_eq_nil_iff.1 hr c List.mem_cons_self
    simp [hc] at this
  | cons d ds =>
    rw [hr] at hpre
    exact congrArg some (List.cons_prefix_cons.1 hpre).1

theorem head?_trim_of_isWord {w : List Char} (hw : IsWord w) (cs : List Char) :
    (trim (w ++ cs)).head? = w.head? := by
  cases w with
  | nil => exact absurd rfl hw.ne_nil
  | cons c w =>
    have hc := hw.not_blank c List.mem_cons_self
    rw [trim, List.cons_append, List.dropWhile_cons_of_neg (by simp [hc])]
    exact head?_rdropWhile hc

theorem head?_trim {cs : List Char} {ws : List (List Char)} (h : Spaced cs ws) :
    (trim cs).head? = ws.head?.bind List.head? := by
  induction h with
  | nil => rfl
  | blank hb _ ih =>
    rw [← ih, trim, List.dropWhile_cons_of_pos hb]
    rfl
  | last hw => simpa using head?_trim_of_isWord hw []
  | word hw _ _ _ => exact head?_trim_of_isWord hw _

theorem getLast?_of_spaced {cs : List Char} {ws : List (List Char)} {c : Char} (h : Spaced cs ws)
    (hc : cs.getLast? = some c) (hblank : isBlank c = false) :
    ws.getLast?.bind List.getLast? = some c := by
  -- what ends the text stands behind the blank
  have hskip {b : Char} {cs : List Char} (hb : isBlank b = true)
      (h : (b :: cs).getLast? = some c) : cs.getLast? = some c := by
    cases cs with
    | nil =>
      have hbc : b = c := Option.some.inj h
      rw [hbc, hblank] at hb
      cases hb
    | cons d ds => rwa [List.getLast?_cons_cons] at h
  induction h with
  | nil => cases hc
  | blank hb _ ih => exact ih (hskip hb hc)
  | last _ => exact hc
  | @word w b cs ws _ hb _ ih =>
    rw [List.getLast?_append_of_ne_nil _ (List.cons_ne_nil _ _)] at hc
    have hws := ih (hskip hb hc)
    cases ws with
    | nil => cases hws
    | cons v ws => rwa [List.getLast?_cons_cons]

/-- Either all of a text is blank, or it starts, blanks apart, as its first word. -/
theorem trim_or_words (cs : List Char) :
    trim cs = [] ∧ words cs = [] ∨
      ∃ c w ws, (trim cs).head? = some c ∧ words cs = (c :: w) :: ws := by
  have hs := spaced_words cs
  have ht := head?_trim hs
  cases hw : words cs with
  | nil =>
    rw [hw] at ht
    exact Or.inl ⟨List.head?_eq_none_iff.1 ht, rfl⟩
  | cons w ws =>
    rw [hw] at hs ht
    cases w with
    | nil => exact absurd rfl (hs.isWord [] List.mem_cons_self).ne_nil
    | cons c w => exact Or.inr ⟨c, w, ws, ht, rfl⟩

end Text
end DpllSat
