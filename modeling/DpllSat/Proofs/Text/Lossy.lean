import DpllSat.Proofs.Text.Lines

/-! How bytes that need not be a text are shown. A text is shown as it is, and what is shown in
front of a slash does not depend on what comes behind it. -/
namespace DpllSat
namespace Text

variable {pending bytes : List UInt8} {c : Char}

/-- Unless something was replaced, what is shown has the bytes that it is shown for. -/
theorem encode_lossyFrom (h : replacement ∉ lossyFrom pending bytes) :
    encode (lossyFrom pending bytes) = pending ++ bytes := by
  induction bytes generalizing pending with
  | nil =>
    cases pending with
    | nil => rfl
    | cons b bs => simp [lossyFrom] at h
  | cons b bytes ih =>
    by_cases hb : mayFollow pending b = true
    · simp only [lossyFrom, hb, if_true, List.nil_append] at h ⊢
      cases hd : decode? (pending ++ [b]) with
      | none =>
        rw [hd] at h
        simpa using ih h
      | some cs =>
        rw [hd] at h
        simp only [List.mem_append, not_or] at h
        rw [encode_append, ih h.2, decode?_eq_some_iff.1 hd]
        simp
    · simp [lossyFrom, hb] at h

theorem mem_of_mem_lossyFrom (hc : c ∈ lossyFrom pending bytes) (hne : c ≠ replacement) :
    ∀ b ∈ String.utf8EncodeChar c, b ∈ pending ++ bytes := by
  have hmem {cs : List Char} (hcs : c ∈ cs) : ∀ b ∈ String.utf8EncodeChar c, b ∈ encode cs :=
    fun b hb => List.mem_flatMap.2 ⟨c, hcs, hb⟩
  induction bytes generalizing pending with
  | nil => cases pending <;> simp [lossyFrom, hne] at hc
  | cons b bytes ih =>
    intro x hx
    have hnext : ∀ x ∈ (if mayFollow pending b then pending ++ [b] else [b]),
        x ∈ pending ++ b :: bytes := by
      intro x hx
      split at hx <;> simp at hx ⊢ <;> tauto
    simp only [lossyFrom, List.mem_append] at hc
    rcases hc with hc | hc
    · split at hc <;> simp [hne] at hc
    · split at hc
      · rename_i cs hd
        rcases List.mem_append.1 hc with hc | hc
        · rw [decode?_eq_some_iff] at hd
          exact hnext x (hd ▸ hmem hc x hx)
        · simpa using Or.inr (Or.inr (ih hc x hx))
      · rcases List.mem_append.1 (ih hc x hx) with hx | hx
        · exact hnext x hx
        · simp [hx]

theorem eq_nil_of_mayFollow_slash (h : mayFollow pending 47 = true) : pending = [] := by
  rcases pending with _ | ⟨a, _ | ⟨b, bs⟩⟩
  · rfl
  · simp only [mayFollow, Bool.and_eq_true, decide_eq_true_eq] at h
    split_ifs at h <;> exact absurd h.2.1 (by decide)
  · exact absurd h (by simp [mayFollow])

/-- A slash stands for itself, and what is behind it is shown by itself. -/
theorem lossyFrom_slash (front back : List UInt8) :
    lossyFrom pending (front ++ 47 :: back) = lossyFrom pending front ++ '/' :: lossy back := by
  have hslash : decode? [47] = some ['/'] := decode?_encode ['/']
  induction front generalizing pending with
  | nil =>
    by_cases h : mayFollow pending 47 = true
    · obtain rfl := eq_nil_of_mayFollow_slash h
      simp [lossyFrom, h, hslash, lossy]
    · have hne : pending ≠ [] := by
        rintro rfl
        exact h rfl
      simp [lossyFrom, h, hslash, lossy, hne]
  | cons b front ih =>
    simp only [List.cons_append, lossyFrom]
    cases decode? (if mayFollow pending b then pending ++ [b] else [b]) <;> simp [ih]

theorem mayFollow_cons {a b : UInt8} (ha : 0xC2 ≤ a.toNat ∧ a.toNat ≤ 0xF4)
    (hb : 0x80 ≤ b.toNat ∧ b.toNat ≤ 0xBF) (h1 : a.toNat = 0xE0 → 0xA0 ≤ b.toNat)
    (h2 : a.toNat = 0xF0 → 0x90 ≤ b.toNat) (h3 : a.toNat = 0xED → b.toNat ≤ 0x9F)
    (h4 : a.toNat = 0xF4 → b.toNat ≤ 0x8F) : mayFollow [a] b = true := by
  simp only [mayFollow, Bool.and_eq_true, decide_eq_true_eq, UInt8.le_iff_toNat_le,
    ← UInt8.toNat_inj]
  refine ⟨ha, ?_, ?_⟩
  · split_ifs
    · exact h1 ‹_›
    · exact h2 ‹_›
    · exact hb.1
  · split_ifs
    · exact h3 ‹_›
    · exact h4 ‹_›
    · exact hb.2

theorem le_of_mem_tail_utf8EncodeChar {b : UInt8} (h : b ∈ (String.utf8EncodeChar c).tail) :
    0x80 ≤ b.toNat ∧ b.toNat ≤ 0xBF := by
  unfold String.utf8EncodeChar at h
  dsimp only at h
  have hcont (n : Nat) : 0x80 ≤ (UInt8.ofNat (n % 64 + 128)).toNat ∧
      (UInt8.ofNat (n % 64 + 128)).toNat ≤ 0xBF := by
    rw [UInt8.toNat_ofNat']
    omega
  split_ifs at h <;> simp only [List.tail_cons, List.mem_cons, List.not_mem_nil, or_false] at h
  · exact h ▸ hcont _
  · rcases h with rfl | rfl <;> exact hcont _
  · rcases h with rfl | rfl | rfl <;> exact hcont _

theorem mayFollow_of_utf8EncodeChar {b : UInt8}
    (h : String.utf8EncodeChar c = pending ++ b :: bytes) : mayFollow pending b = true := by
  have hvalid : c.val.toNat < 0xD800 ∨ 0xDFFF < c.val.toNat ∧ c.val.toNat < 0x110000 := c.valid
  rcases pending with _ | ⟨p, _ | ⟨q, rest⟩⟩
  · rfl
  · unfold String.utf8EncodeChar at h
    dsimp only at h
    split_ifs at h <;> simp only [List.cons_append, List.nil_append, List.cons.injEq] at h
    · simp at h
    all_goals
      obtain ⟨rfl, rfl, -⟩ := h
      apply mayFollow_cons <;> simp only [UInt8.toNat_ofNat'] <;> omega
  · have hcont := le_of_mem_tail_utf8EncodeChar (c := c) (b := b) (by simp [h])
    simpa [mayFollow, UInt8.le_iff_toNat_le] using hcont

/-- No character begins with the bytes of another. -/
theorem eq_of_utf8EncodeChar_append {d : Char}
    (h : String.utf8EncodeChar c = String.utf8EncodeChar d ++ bytes) : c = d := by
  have hfirst (c : Char) (bytes : List UInt8) :
      (String.utf8EncodeChar c ++ bytes).toByteArray.utf8DecodeChar? 0 = some c := by
    rw [List.toByteArray_append]
    exact ByteArray.utf8DecodeChar?_utf8EncodeChar_append
  have hc := hfirst c []
  rw [List.append_nil, h, hfirst] at hc
  exact (Option.some.inj hc).symm

theorem decode?_of_utf8EncodeChar (h : String.utf8EncodeChar c = pending ++ bytes)
    (hp : pending ≠ []) (hb : bytes ≠ []) : decode? pending = none := by
  cases hd : decode? pending with
  | none => rfl
  | some cs =>
    rw [decode?_eq_some_iff] at hd
    cases cs with
    | nil => exact absurd hd.symm hp
    | cons d cs =>
      rw [← hd, encode, List.flatMap_cons, List.append_assoc] at h
      have hcd := eq_of_utf8EncodeChar_append h
      rw [hcd] at h
      simp [hb] at h

theorem lossyFrom_utf8EncodeChar {rest : List UInt8}
    (h : String.utf8EncodeChar c = pending ++ bytes) (hb : bytes ≠ []) :
    lossyFrom pending (bytes ++ rest) = c :: lossy rest := by
  induction bytes generalizing pending with
  | nil => exact absurd rfl hb
  | cons b bytes ih =>
    have hfollow := mayFollow_of_utf8EncodeChar h
    rw [List.append_cons] at h
    simp only [List.cons_append, lossyFrom, hfollow, if_true, List.nil_append]
    cases bytes with
    | nil =>
      have hc : decode? (pending ++ [b]) = some [c] := by
        rw [decode?_eq_some_iff, ← List.append_nil (pending ++ [b]), ← h]
        exact List.append_nil _
      rw [hc]
      rfl
    | cons b' bytes =>
      rw [decode?_of_utf8EncodeChar h (by simp) (List.cons_ne_nil _ _)]
      exact ih h (List.cons_ne_nil _ _)

theorem lossy_encode (cs : List Char) : lossy (encode cs) = cs := by
  induction cs with
  | nil => rfl
  | cons c cs ih =>
    have hc := @lossyFrom_utf8EncodeChar [] _ c (encode cs) (List.nil_append _).symm
      String.utf8EncodeChar_ne_nil
    rw [ih] at hc
    exact hc

end Text
end DpllSat
