import DpllSat.Search.Turn

/-! A bound on the length of the search. Assuming a literal removes its variable, so the
frames that a turn adds have fewer literals left than the one it took up. -/
namespace DpllSat
namespace Search

def literalCount (F : Formula) : Nat := F.flatten.length

def literalCountWithout (v : Var) (F : Formula) : Nat := F.flatten.countP fun l => l.var != v

theorem literalCountWithout_le (v : Var) (F : Formula) :
    literalCountWithout v F ≤ literalCount F := List.countP_le_length

theorem literalCountWithout_lt {v : Var} {F : Formula} (h : ∃ c ∈ F, ∃ l ∈ c, l.var = v) :
    literalCountWithout v F < literalCount F := by
  obtain ⟨c, hc, l, hl, hv⟩ := h
  refine Nat.lt_of_le_of_ne (literalCountWithout_le v F) fun e => ?_
  have := List.countP_eq_length.1 e l (List.mem_flatten.2 ⟨c, hc, hl⟩)
  simp [hv] at this

theorem length_strike {l : Lit} {c d : Clause} (hl : l ∉ c)
    (h : Propagation.strike l.neg c = some d) :
    d.length ≤ c.countP fun k => k.var != l.var := by
  have key : ∀ k ∈ c, k ≠ l.neg → (k.var != l.var) = true := by
    intro k hk hne
    simp only [bne_iff_ne, ne_eq]
    intro e
    rcases Lit.var_eq_iff.1 e with rfl | e
    · exact hl hk
    · exact hne e
  unfold Propagation.strike at h
  split at h
  · split at h
    · cases h
    · cases h
      rw [← List.countP_eq_length_filter]
      exact List.countP_mono_left fun k hk hne => key k hk (by simpa using hne)
  · rename_i hn
    cases h
    have : c.countP (fun k => k.var != l.var) = c.length :=
      List.countP_eq_length.2 fun k hk => key k hk fun e => hn (by simpa [e] using hk)
    omega

theorem literalCount_assume {l : Lit} {F G : Formula} (h : Propagation.assume l F = some G) :
    literalCount G ≤ literalCountWithout l.var F := by
  induction F generalizing G with
  | nil => cases h; exact Nat.zero_le _
  | cons c F ih =>
    rw [Propagation.assume_cons] at h
    split at h
    · have := ih h
      simp only [literalCountWithout, List.flatten_cons, List.countP_append] at this ⊢
      omega
    · rename_i hc
      obtain ⟨d, hd, h⟩ := Option.bind_eq_some_iff.1 h
      obtain ⟨H, hH, rfl⟩ := Option.map_eq_some_iff.1 h
      have h1 := length_strike hc hd
      have h2 := ih hH
      simp only [literalCountWithout, literalCount, List.flatten_cons, List.countP_append,
        List.length_append] at h2 ⊢
      omega

theorem literalCount_propagate {F G : Formula}
    (h : (Propagation.propagate F).residual? = some G) : literalCount G ≤ literalCount F := by
  fun_induction Propagation.propagate F with
  | case1 F _ => cases h; exact Nat.le_refl _
  | case2 F l _ _ => cases h
  | case3 F l _ H ha rest ih =>
    exact Nat.le_trans (ih h)
      (Nat.le_trans (literalCount_assume ha) (literalCountWithout_le l.var F))

namespace Frame

/-- How many literals can be left once the decision has been assumed. -/
def size (f : Frame) : Nat :=
  match f.decision? with
  | none => literalCount f.branch.formula
  | some l => literalCountWithout l.var f.branch.formula

/-- A frame of size `n` costs at most `3 ^ n` turns: it makes two frames of smaller size. -/
def cost (f : Frame) : Nat := Nat.pow 3 f.size

theorem cost_pos (f : Frame) : 0 < f.cost := Nat.pow_pos (by decide)

theorem cost_lt {f g : Frame} (h : f.size < g.size) : f.cost + f.cost < g.cost := by
  have h1 : Nat.pow 3 (f.size + 1) ≤ Nat.pow 3 g.size :=
    Nat.pow_le_pow_right (by decide) h
  have h2 : Nat.pow 3 (f.size + 1) = Nat.pow 3 f.size * 3 := rfl
  have := f.cost_pos
  simp only [cost] at this ⊢
  omega

end Frame

def stackCost : List Frame → Nat
  | [] => 0
  | f :: rest => f.cost + stackCost rest

@[simp] theorem State.takeUp_stack (s : State) (f : Frame) : (s.takeUp f).stack = s.stack := by
  unfold takeUp
  split <;> rfl

theorem stackCost_explore {weight : Float} {b : Branch} {g : Frame} {s t : State}
    (hg : literalCount b.formula ≤ g.size) (h : (explore weight b s).step = .more t) :
    stackCost t.stack < g.cost + stackCost s.stack := by
  have hpos := g.cost_pos
  unfold explore at h
  split at h
  · cases h
    show stackCost s.stack < _
    omega
  · rename_i c hc
    simp only at h
    split at h
    · cases h
    · split at h
      · cases h
        show stackCost s.stack < _
        omega
      · rename_i v hv
        cases h
        obtain ⟨F, hF, rfl⟩ := Option.map_eq_some_iff.1 hc
        have h1 := literalCount_propagate hF
        have h2 := literalCountWithout_lt (Branching.mem_of_pick hv)
        have h3 := Frame.cost_lt (f := ⟨⟨F, b.trail ++ _⟩, some ⟨v, true⟩⟩) (g := g)
          (Nat.lt_of_lt_of_le h2 (Nat.le_trans h1 hg))
        show Frame.cost _ + (Frame.cost _ + stackCost s.stack) < _
        rw [← Nat.add_assoc]
        exact Nat.add_lt_add_right h3 _

/-- Every turn makes the rest of the run cheaper. -/
theorem stackCost_turn {weight : Float} {f : Frame} {s t : State}
    (h : (turn weight f s).step = .more t) : stackCost t.stack < f.cost + stackCost s.stack := by
  have hpos := f.cost_pos
  unfold turn at h
  simp only at h
  split at h
  · rename_i hd
    have := stackCost_explore (g := f) (by simp [Frame.size, hd]) h
    simpa using this
  · rename_i l hd
    split at h
    · cases h
      show stackCost (s.takeUp f).stack < _
      rw [State.takeUp_stack]
      omega
    · rename_i b hb
      obtain ⟨G, hG, rfl⟩ := Option.map_eq_some_iff.1 hb
      have := stackCost_explore (g := f) (by simpa [Frame.size, hd] using literalCount_assume hG) h
      simpa using this

end Search
end DpllSat
