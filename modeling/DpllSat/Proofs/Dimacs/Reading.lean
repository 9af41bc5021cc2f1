import DpllSat.Proofs.Dimacs.Grammar

/-! What the reader accepts, and what it reads there. -/
namespace DpllSat
namespace Dimacs

open Text

section Words

theorem header?_eq_ok_iff {ws : List (List Char)} {v n : Nat} :
    header? ws = .ok ⟨v, n⟩ ↔ HeaderWords ws v n := by
  constructor
  · intro hh
    unfold header? at hh
    split at hh
    · rename_i p format vars clauses
      split at hh
      · cases hh
      · rename_i hp
        split at hh
        · cases hh
        · rename_i hf
          split at hh
          · cases hh
          · rename_i v hv
            split at hh
            · cases hh
            · rename_i hmax
              split at hh
              · cases hh
              · rename_i n hn
                cases hh
                have hv := unsigned?_eq_some_iff.1 hv
                have hn := unsigned?_eq_some_iff.1 hn
                exact ⟨vars, clauses, by rw [not_not.1 hp, not_not.1 hf], hv.1,
                  Nat.le_of_not_lt hmax, hn.1, hn.2⟩
    · cases hh
  · rintro ⟨vw, nw, rfl, hv, hmax, hn, hbound⟩
    have hv := unsigned?_eq_some_iff.2 ⟨hv, Nat.le_trans hmax (by decide : _ ≤ maxUnsigned32)⟩
    have hn := unsigned?_eq_some_iff.2 ⟨hn, hbound⟩
    simp [header?, hv, hn, Nat.not_lt.2 hmax]

theorem map_eq_ok_iff {ε α β : Type} {f : α → β} {x : Except ε α} {b : β} :
    x.map f = .ok b ↔ ∃ a, x = .ok a ∧ f a = b := by
  cases x <;> simp [Except.map]

theorem integers?_eq_ok_iff {ws : List (List Char)} {vs : List (Int × List Char)} :
    integers? ws = .ok vs ↔
      vs.map Prod.snd = ws ∧ ∀ v ∈ vs, signed? maxSigned64 v.2 = some v.1 := by
  induction ws generalizing vs with
  | nil =>
    simp only [integers?, Except.ok.injEq, List.map_eq_nil_iff]
    constructor
    · rintro rfl
      exact ⟨rfl, by simp⟩
    · exact fun h => h.1.symm
  | cons w ws ih =>
    simp only [integers?, List.map_eq_cons_iff]
    split
    · rename_i hw
      refine iff_of_false (by simp) ?_
      rintro ⟨⟨v, vs, rfl, rfl, -⟩, hvs⟩
      simp [hvs v List.mem_cons_self] at hw
    · rename_i n hw
      simp only [map_eq_ok_iff, ih]
      constructor
      · rintro ⟨vs, ⟨rfl, hvs⟩, rfl⟩
        exact ⟨⟨(n, w), vs, rfl, rfl, rfl⟩, List.forall_mem_cons.2 ⟨hw, hvs⟩⟩
      · rintro ⟨⟨⟨m, u⟩, vs, rfl, rfl, rfl⟩, hvs⟩
        obtain ⟨hm, hvs⟩ := List.forall_mem_cons.1 hvs
        have hmn : m = n := Option.some.inj (hm.symm.trans hw)
        exact ⟨vs, ⟨rfl, hvs⟩, by rw [hmn]⟩

theorem literals?_eq_ok_iff {vs : List (Int × List Char)} {c : Clause} :
    literals? vs = .ok c ↔ c.map Lit.dimacs = vs.map Prod.fst := by
  induction vs generalizing c with
  | nil => simp [literals?, eq_comm]
  | cons v vs ih =>
    obtain ⟨n, w⟩ := v
    simp only [literals?, List.map_cons, List.map_eq_cons_iff]
    by_cases hn : n = 0
    · subst hn
      simp [Lit.dimacs_ne_zero]
    · rw [if_neg hn]
      cases hl : Lit.ofDimacs? n with
      | none =>
        refine iff_of_false (by simp) ?_
        rintro ⟨l, c, -, h, -⟩
        rw [Lit.ofDimacs?_eq_some_iff.2 h] at hl
        cases hl
      | some l =>
        have hln := Lit.ofDimacs?_eq_some_iff.1 hl
        simp only [map_eq_ok_iff, ih]
        constructor
        · rintro ⟨c, hc, rfl⟩
          exact ⟨l, c, rfl, hln, hc⟩
        · rintro ⟨k, c, rfl, hk, hc⟩
          exact ⟨c, hc, by rw [Lit.dimacs_injective (hk.trans hln.symm)]⟩

theorem signed?_dimacs_iff {w : List Char} {l : Lit} :
    signed? maxSigned64 w = some l.dimacs ↔ Signed w l.dimacs := by
  have hbounds : -(maxSigned64 : Int) - 1 ≤ l.dimacs ∧ l.dimacs ≤ maxSigned64 := by
    have h := l.var.le_max
    unfold maxVariable at h
    unfold Lit.dimacs maxSigned64
    split <;> omega
  rw [signed?_eq_some_iff, and_iff_left hbounds]

/-- Reading words as integers and the integers as literals is reading the words as literals. -/
theorem forall₂_signed_iff {us : List (List Char)} {c : Clause} :
    List.Forall₂ (fun u l => Signed u l.dimacs) us c ↔
      ∃ vs : List (Int × List Char), vs.map Prod.snd = us ∧
        (∀ v ∈ vs, signed? maxSigned64 v.2 = some v.1) ∧ c.map Lit.dimacs = vs.map Prod.fst := by
  constructor
  · intro h
    induction h with
    | nil => exact ⟨[], rfl, by simp, rfl⟩
    | @cons u l us c hu _ ih =>
      obtain ⟨vs, rfl, hvs, hc⟩ := ih
      refine ⟨(l.dimacs, u) :: vs, rfl, ?_, by rw [List.map_cons, List.map_cons, hc]⟩
      exact List.forall_mem_cons.2 ⟨signed?_dimacs_iff.2 hu, hvs⟩
  · rintro ⟨vs, rfl, hvs, hc⟩
    induction vs generalizing c with
    | nil =>
      rw [List.map_eq_nil_iff.1 hc]
      exact .nil
    | cons v vs ih =>
      obtain ⟨hv, hvs⟩ := List.forall_mem_cons.1 hvs
      obtain ⟨l, c, rfl, hl, hc⟩ := List.map_eq_cons_iff.1 hc
      rw [← hl] at hv
      exact .cons (signed?_dimacs_iff.1 hv) (ih hvs hc)

theorem clause?_eq_ok_iff {ws : List (List Char)} {c : Clause} :
    clause? ws = .ok c ↔ ClauseWords ws c := by
  have hzero {z : List Char} : signed? maxSigned64 z = some 0 ↔ Signed z 0 := by
    rw [signed?_eq_some_iff]
    exact and_iff_left ⟨by decide, by decide⟩
  constructor
  · intro h
    unfold clause? at h
    split at h
    · cases h
    · rename_i vs hvs
      split at h
      · rename_i z hlast
        have hsplit := List.dropLast_append_getLast? _ hlast
        obtain ⟨hws, hval⟩ := integers?_eq_ok_iff.1 hvs
        rw [← hsplit] at hws hval
        obtain ⟨hinit, hz⟩ := List.forall_mem_append.1 hval
        refine ⟨vs.dropLast.map Prod.snd, z, ?_, ?_, ?_⟩
        · rw [← hws, List.map_append, List.map_singleton]
        · exact forall₂_signed_iff.2 ⟨_, rfl, hinit, literals?_eq_ok_iff.1 h⟩
        · exact hzero.1 (hz _ List.mem_cons_self)
      · cases h
  · rintro ⟨us, z, rfl, hus, hz⟩
    obtain ⟨vs, rfl, hvs, hc⟩ := forall₂_signed_iff.1 hus
    have hints : integers? (vs.map Prod.snd ++ [z]) = .ok (vs ++ [(0, z)]) :=
      integers?_eq_ok_iff.2 ⟨by simp, List.forall_mem_append.2
        ⟨hvs, by simpa using hzero.2 hz⟩⟩
    simp [clause?, hints, literals?_eq_ok_iff.2 hc]

theorem headerText_iff {cs : List Char} {v n : Nat} :
    HeaderText cs v n ↔ header? (words cs) = .ok ⟨v, n⟩ := by
  rw [header?_eq_ok_iff]
  constructor
  · rintro ⟨ws, hs, hw⟩
    exact words_of_spaced hs ▸ hw
  · exact fun hw => ⟨_, spaced_words cs, hw⟩

theorem clauseText_iff {cs : List Char} {c : Clause} (hp : ¬ Starts 'p' cs) :
    ClauseText cs c ↔ clause? (words cs) = .ok c := by
  rw [clause?_eq_ok_iff]
  constructor
  · rintro ⟨-, ws, hs, hw⟩
    exact words_of_spaced hs ▸ hw
  · exact fun hw => ⟨hp, _, spaced_words cs, hw⟩

end Words

section Lines

inductive Kind (cs : List Char) : Line → Prop
  | skipped : Skipped cs → Kind cs .skipped
  | trailer : Starts '%' cs → Kind cs .trailer
  | header : Starts 'p' cs → Kind cs (.header (words cs))
  | clause : Kept cs → ¬ Starts 'p' cs → Kind cs (.clause (words cs))

theorem kind_ofWords (cs : List Char) : Kind cs (Line.ofWords (words cs)) := by
  rcases trim_or_words cs with ⟨ht, hw⟩ | ⟨c, w, ws, ht, hw⟩
  · rw [hw]
    exact .skipped (Or.inl ht)
  · generalize hk : Line.ofWords (words cs) = k
    rw [hw] at hk
    simp only [Line.ofWords, List.head?_cons] at hk
    split at hk
    · rename_i hc
      rw [hc] at ht
      exact hk ▸ .skipped (Or.inr ht)
    · rename_i hc
      rw [hc] at ht
      exact hk ▸ .trailer ht
    · rename_i hc
      rw [hc] at ht
      rw [← hk, ← hw]
      exact .header ht
    · rename_i hc hpercent hp
      have hs : Starts c cs := ht
      rw [Option.some.injEq] at hc hpercent hp
      rw [← hk, ← hw]
      exact .clause (hs.kept_of_ne hc hpercent) fun h => hp (hs.eq h)

theorem exists_kind {line : List UInt8} {k : Line} (h : Line.ofBytes? line = some k) :
    ∃ cs, encode cs = line ∧ Kind cs k := by
  obtain ⟨cs, hcs, rfl⟩ := Option.map_eq_some_iff.1 h
  exact ⟨cs, decode?_eq_some_iff.1 hcs, kind_ofWords cs⟩

theorem not_content_of_ofBytes? {line : List UInt8} (h : Line.ofBytes? line = none)
    {rest : List (List UInt8)} {kept : List (List Char)} : ¬ Content (line :: rest) kept := by
  have hne (cs : List Char) : encode cs ≠ line := by
    rintro rfl
    simp [Line.ofBytes?] at h
  rw [content_of_not_trailer (by rintro ⟨cs, hcs, -⟩; exact hne cs hcs)]
  rintro ⟨cs, -, hcs, -⟩
  exact hne cs hcs

theorem clausesFrom_eq_ok_iff {n : Nat} {lines : List (List UInt8)} {f : Formula} :
    clausesFrom n lines = .ok f ↔ SpellsClauses lines f := by
  fun_induction clausesFrom n lines generalizing f with
  | case1 n => simp [SpellsClauses, eq_comm]
  | case2 n line rest hl => simp [SpellsClauses, not_content_of_ofBytes? hl]
  | case3 n line rest hl ih =>
    obtain ⟨cs, rfl, hk⟩ := exists_kind hl
    cases hk with
    | skipped hs =>
      rw [ih]
      simp only [SpellsClauses, content_of_skipped hs]
  | case4 n line rest hl =>
    obtain ⟨cs, rfl, hk⟩ := exists_kind hl
    cases hk with
    | trailer ht => simp [SpellsClauses, content_of_trailer ht, eq_comm]
  | case5 n line rest ws hl =>
    obtain ⟨cs, rfl, hk⟩ := exists_kind hl
    cases hk with
    | header hp =>
      have hc (c : Clause) : ¬ ClauseText cs c := fun hc => hc.1 hp
      rw [spellsClauses_of_kept hp.header_kept]
      simp [hc]
  | case6 n line rest ws hl e he =>
    obtain ⟨cs, rfl, hk⟩ := exists_kind hl
    cases hk with
    | clause hk hp =>
      rw [spellsClauses_of_kept hk]
      simp [clauseText_iff hp, he]
  | case7 n line rest ws hl c hc ih =>
    obtain ⟨cs, rfl, hk⟩ := exists_kind hl
    cases hk with
    | clause hk hp =>
      rw [spellsClauses_of_kept hk]
      simp [clauseText_iff hp, hc, map_eq_ok_iff, ih]

theorem readFrom_eq_ok_iff {n : Nat} {lines : List (List UInt8)} {r : Reading} :
    readFrom n lines = .ok r ↔ Spells lines r := by
  fun_induction readFrom n lines with
  | case1 n => simp [Spells]
  | case2 n line rest hl => simp [Spells, not_content_of_ofBytes? hl]
  | case3 n line rest hl ih =>
    obtain ⟨cs, rfl, hk⟩ := exists_kind hl
    cases hk with
    | skipped hs =>
      rw [ih]
      simp only [Spells, content_of_skipped hs]
  | case4 n line rest hl =>
    obtain ⟨cs, rfl, hk⟩ := exists_kind hl
    cases hk with
    | trailer ht => simp [Spells, content_of_trailer ht]
  | case5 n line rest ws hl =>
    obtain ⟨cs, rfl, hk⟩ := exists_kind hl
    cases hk with
    | clause hk hp =>
      have hh (v n : Nat) : ¬ HeaderText cs v n := fun hh => hp hh.starts
      rw [spells_of_kept hk]
      simp [hh]
  | case6 n line rest ws hl fault hh =>
    obtain ⟨cs, rfl, hk⟩ := exists_kind hl
    cases hk with
    | header hp =>
      rw [spells_of_kept hp.header_kept]
      simp [headerText_iff, hh]
  | case7 n line rest ws hl h hh =>
    obtain ⟨cs, rfl, hk⟩ := exists_kind hl
    cases hk with
    | header hp =>
      rw [spells_of_kept hp.header_kept, headerText_iff, hh, map_eq_ok_iff]
      simp only [clausesFrom_eq_ok_iff]
      constructor
      · rintro ⟨f, hf, rfl⟩
        exact ⟨rfl, hf⟩
      · rintro ⟨heq, hf⟩
        cases heq
        exact ⟨r.cnf.clauses, hf, rfl⟩

/-- A text without a header is not accepted. -/
theorem exists_error_of_not_header {bytes : List UInt8}
    (h : ∀ cs, encode cs ∈ lines bytes → ∀ v n, ¬ HeaderText cs v n) :
    ∃ e, read bytes = .error e := by
  cases hr : read bytes with
  | error e => exact ⟨e, rfl⟩
  | ok r =>
    obtain ⟨header, clauses, hc, hh, -⟩ := readFrom_eq_ok_iff.1 hr
    exact absurd hh (h header (hc.encode_mem List.mem_cons_self) _ _)

theorem numVars_le_of_read {bytes : List UInt8} {r : Reading} (h : read bytes = .ok r) :
    r.cnf.numVars ≤ maxVariable := by
  obtain ⟨header, clauses, -, ⟨ws, -, vw, nw, -, -, hmax, -⟩, -⟩ := readFrom_eq_ok_iff.1 h
  exact hmax

theorem length_clauses_le_of_read {bytes : List UInt8} {r : Reading} (h : read bytes = .ok r) :
    r.cnf.clauses.length ≤ bytes.length := by
  obtain ⟨header, clauses, hc, -, hf⟩ := readFrom_eq_ok_iff.1 h
  have hlines := hc.length_le
  rw [List.length_cons, hf.length_eq] at hlines
  have hbytes := length_lines_le bytes
  omega

/-- A byte stream is accepted just if it spells a formula, and that formula is what is read.
The lines after a trailer play no part in it, and the declared number of clauses is free. -/
theorem read_eq_ok_iff_spells (bytes : List UInt8) (r : Reading) :
    read bytes = .ok r ↔ Spells (bytes.splitOn 10) r := by
  rw [read, readFrom_eq_ok_iff]
  rcases splitOn_eq_lines bytes with h | h
  · rw [h]
  · rw [h]
    simp only [Spells, content_append_nil]

end Lines

end Dimacs
end DpllSat
