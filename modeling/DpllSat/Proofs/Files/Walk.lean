import DpllSat.FileSystem

/-! Paths before and after a file is added. What could be reached still is, and what can be reached
now is the new file or could be reached before. -/
namespace DpllSat

variable {look look' : Place → Option Spot} {creating slash : Bool} {place p : Place}
  {part : List UInt8} {ps : List (List UInt8)} {stop : Stop} {id : Nat}
  {jump jump' : Place → Path → List (List UInt8) → Except FileError Place}

def Passable (look : Place → Option Spot) (place : Place) : Prop :=
  ∃ access fault?, look place = some (.dir access fault?) ∧ access.search = true

theorem lookUp_of_name {name : Name} (h : Passable look place) :
    lookUp look false place name.bytes =
      .ok (.of (place ++ [name]) (look (place ++ [name]))) := by
  obtain ⟨access, fault?, hl, hs⟩ := h
  simp [lookUp, hl, hs, name.ne_dot, name.ne_dots]

theorem lookUp_of_dot (h : Passable look place) :
    lookUp look slash place [46] = .ok (.dir place) := by
  obtain ⟨access, fault?, hl, hs⟩ := h
  simp [lookUp, hl, hs]

theorem lookUp_of_dots (h : Passable look place) :
    lookUp look slash place [46, 46] = .ok (.dir place.dropLast) := by
  obtain ⟨access, fault?, hl, hs⟩ := h
  simp [lookUp, hl, hs]

theorem passable_of_lookUp (h : lookUp look slash place part = .ok stop) :
    Passable look place := by
  unfold lookUp at h
  split at h
  · rename_i access fault? hl
    split at h
    · cases h
    · rename_i hs
      exact ⟨access, fault?, hl, by simpa using hs⟩
  · cases h

theorem lookUp_cases (h : lookUp look slash place part = .ok stop) :
    part = [46] ∧ stop = .dir place ∨ part = [46, 46] ∧ stop = .dir place.dropLast ∨
      ∃ name : Name, part = name.bytes ∧
        stop = .of (place ++ [name]) (look (place ++ [name])) := by
  obtain ⟨access, fault?, hl, hs⟩ := passable_of_lookUp h
  simp only [lookUp, hl, hs, Bool.not_true, Bool.false_eq_true, if_false] at h
  split at h
  · rename_i hpart
    cases h
    exact Or.inl ⟨hpart, rfl⟩
  split at h
  · rename_i hpart
    cases h
    exact Or.inr (Or.inl ⟨hpart, rfl⟩)
  split at h
  · cases h
  split at h
  · cases h
  · rename_i name hname
    cases h
    exact Or.inr (Or.inr ⟨name, (Name.of?_eq_some_iff.1 hname).symm, rfl⟩)

theorem look_of_vacant {next : Place} (h : lookUp look slash place part = .ok (.vacant next)) :
    look next = none := by
  rcases lookUp_cases h with ⟨-, h⟩ | ⟨-, h⟩ | ⟨name, -, h⟩
  · cases h
  · cases h
  · cases hs : look (place ++ [name]) with
    | none =>
      rw [hs] at h
      cases h
      exact hs
    | some s =>
      rw [hs] at h
      cases s <;> cases h

/-- At some places where nothing was, there is now the file with the given number. -/
structure Gains (id : Nat) (look look' : Place → Option Spot) : Prop where
  keep : ∀ {p s}, look p = some s → look' p = some s
  back : ∀ {p s}, look' p = some s → look p = some s ∨ s = .file id

namespace Gains

theorem refl (id : Nat) (look : Place → Option Spot) : Gains id look look :=
  ⟨fun h => h, Or.inl⟩

theorem passable (h : Gains id look look') (hp : Passable look place) : Passable look' place := by
  obtain ⟨access, fault?, hl, hs⟩ := hp
  exact ⟨access, fault?, h.keep hl, hs⟩

theorem passable_back (h : Gains id look look') (hp : Passable look' place) :
    Passable look place := by
  obtain ⟨access, fault?, hl, hs⟩ := hp
  rcases h.back hl with hl | he
  · exact ⟨access, fault?, hl, hs⟩
  · cases he

/-- What a part was found to be, it still is, unless it is the new file. -/
theorem lookUp (h : Gains id look look') (hl : DpllSat.lookUp look slash place part = .ok stop) :
    DpllSat.lookUp look' false place part = .ok stop ∨
      ∃ next, stop = .vacant next ∧ look' next = some (.file id) ∧
        DpllSat.lookUp look' false place part = .ok (.leaf next) := by
  have hp := h.passable (passable_of_lookUp hl)
  rcases lookUp_cases hl with ⟨rfl, rfl⟩ | ⟨rfl, rfl⟩ | ⟨name, rfl, rfl⟩
  · exact Or.inl (lookUp_of_dot hp)
  · exact Or.inl (lookUp_of_dots hp)
  · rw [lookUp_of_name hp]
    cases hs : look (place ++ [name]) with
    | some s => exact Or.inl (by rw [h.keep hs])
    | none =>
      cases hs' : look' (place ++ [name]) with
      | none => exact Or.inl rfl
      | some s =>
        rcases h.back hs' with hs'' | rfl
        · rw [hs] at hs''
          cases hs''
        · exact Or.inr ⟨_, rfl, hs', rfl⟩

theorem lookUp_back (h : Gains id look look')
    (hl : DpllSat.lookUp look' false place part = .ok stop) :
    DpllSat.lookUp look false place part = .ok stop ∨
      ∃ next, stop = .leaf next ∧ look' next = some (.file id) := by
  have hp := h.passable_back (passable_of_lookUp hl)
  rcases lookUp_cases hl with ⟨rfl, rfl⟩ | ⟨rfl, rfl⟩ | ⟨name, rfl, rfl⟩
  · exact Or.inl (lookUp_of_dot hp)
  · exact Or.inl (lookUp_of_dots hp)
  · rw [lookUp_of_name hp]
    cases hs' : look' (place ++ [name]) with
    | none =>
      cases hs : look (place ++ [name]) with
      | none => exact Or.inl rfl
      | some s =>
        rw [h.keep hs] at hs'
        cases hs'
    | some s =>
      rcases h.back hs' with hs | rfl
      · exact Or.inl (by rw [hs])
      · exact Or.inr ⟨_, rfl, hs'⟩

theorem walk (h : Gains id look look')
    (hjump : ∀ {a goal rest}, jump a goal rest = .ok p → jump' a goal rest = .ok p)
    (hnew : creating = true → look' p ≠ none)
    (hw : DpllSat.walk look creating jump place ps = .ok p) :
    DpllSat.walk look' false jump' place ps = .ok p := by
  induction ps generalizing place with
  | nil => exact hw
  | cons part rest ih =>
    rw [DpllSat.walk] at hw ⊢
    by_cases hpart : part = []
    · rw [if_pos hpart] at hw ⊢
      exact ih hw
    rw [if_neg hpart] at hw ⊢
    simp only [Bool.false_and]
    split at hw
    · cases hw
    · rename_i next hl
      rcases h.lookUp hl with hl' | ⟨_, hv, -⟩
      · rw [hl']
        exact ih hw
      · cases hv
    · rename_i next hl
      rcases h.lookUp hl with hl' | ⟨_, hv, -⟩
      · rw [hl']
        exact hw
      · cases hv
    · -- where nothing was, there can only be the new file now
      rename_i next hl
      split at hw
      · rename_i hc
        cases hw
        rcases h.lookUp hl with hl' | ⟨_, hv, -, hl'⟩
        · exact absurd (look_of_vacant hl') (hnew hc.1)
        · cases hv
          rw [hl']
          exact if_pos hc.2
      · cases hw
    · rename_i goal hl
      rcases h.lookUp hl with hl' | ⟨_, hv, -⟩
      · rw [hl']
        exact hjump hw
      · cases hv

/-- Where a walk leads now, it led before, unless it is to the new file. -/
theorem walk_back (h : Gains id look look')
    (hjump : ∀ {a goal rest}, jump' a goal rest = .ok p →
      look' p = some (.file id) ∨ jump a goal rest = .ok p)
    (hw : DpllSat.walk look' false jump' place ps = .ok p) :
    look' p = some (.file id) ∨ DpllSat.walk look false jump place ps = .ok p := by
  induction ps generalizing place with
  | nil => exact Or.inr hw
  | cons part rest ih =>
    rw [DpllSat.walk] at hw ⊢
    by_cases hpart : part = []
    · rw [if_pos hpart] at hw ⊢
      exact ih hw
    rw [if_neg hpart] at hw ⊢
    simp only [Bool.false_and] at hw ⊢
    split at hw
    · cases hw
    · rename_i next hl
      rcases h.lookUp_back hl with hl' | ⟨_, hv, -⟩
      · rw [hl']
        exact ih hw
      · cases hv
    · rename_i next hl
      rcases h.lookUp_back hl with hl' | ⟨_, hv, hnew⟩
      · rw [hl']
        exact Or.inr hw
      · cases hv
        split at hw
        · cases hw
          exact Or.inl hnew
        · cases hw
    · simp at hw
    · rename_i goal hl
      rcases h.lookUp_back hl with hl' | ⟨_, hv, -⟩
      · rw [hl']
        exact hjump hw
      · cases hv

theorem follow (h : Gains id look look') {links : Nat} (hnew : creating = true → look' p ≠ none)
    (hf : DpllSat.follow look creating links place ps = .ok p) :
    DpllSat.follow look' false links place ps = .ok p := by
  induction links generalizing place ps with
  | zero => exact h.walk (fun hj => hj) hnew hf
  | succ links ih =>
    refine h.walk (fun hj => ?_) hnew hf
    split at hj
    · cases hj
    · exact ih hj

theorem follow_back (h : Gains id look look') {links : Nat}
    (hf : DpllSat.follow look' false links place ps = .ok p) :
    look' p = some (.file id) ∨ DpllSat.follow look false links place ps = .ok p := by
  induction links generalizing place ps with
  | zero => exact h.walk_back Or.inr hf
  | succ links ih =>
    refine h.walk_back (fun hj => ?_) hf
    split at hj
    · cases hj
    · exact ih hj

end Gains
end DpllSat
