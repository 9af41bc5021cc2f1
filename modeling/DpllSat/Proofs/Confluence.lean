import DpllSat.Proofs.Conditioning
import DpllSat.Proofs.UnitPropagation
import Mathlib.Data.Multiset.Basic
import Mathlib.Logic.Relation

/-! The unit clauses of a formula can be taken up in any order: every run of unit propagation
ends in the same formula with the same literals on the trail, or every run ends in a
contradiction. -/
namespace DpllSat
namespace Propagation

theorem unit_mem_of_assume {k l : Lit} {F G : Formula} (ha : assume l F = some G)
    (hk : [k] ∈ F) (hv : k.var ≠ l.var) : [k] ∈ G := by
  rw [← reduce_of_assume ha]
  refine mem_reduce.2 ⟨[k], hk, ?_, ?_⟩
  · simp only [List.mem_singleton, forall_eq]
    rintro rfl
    exact hv rfl
  · simp [reduceClause, Lit.neg_ne_of_var_ne hv]

end Propagation

namespace Branch

open Propagation Relation

/-- A branch without regard to the order of its trail. -/
def unordered (b : Branch) : Formula × Multiset Lit := (b.formula, ↑b.trail)

theorem unordered_eq_iff {b c : Branch} :
    b.unordered = c.unordered ↔ b.formula = c.formula ∧ b.trail.Perm c.trail := by
  simp [unordered]

theorem length_assume_lt {b c : Branch} {l : Lit} (hl : [l] ∈ b.formula)
    (hc : b.assume l = some c) : c.formula.length < b.formula.length := by
  obtain ⟨G, hG, rfl⟩ := Option.map_eq_some_iff.1 hc
  exact Propagation.length_assume_lt hl hG

theorem unit_mem_of_assume {b c : Branch} {k l : Lit} (hc : b.assume l = some c)
    (hk : [k] ∈ b.formula) (hv : k.var ≠ l.var) : [k] ∈ c.formula := by
  obtain ⟨G, hG, rfl⟩ := Option.map_eq_some_iff.1 hc
  exact Propagation.unit_mem_of_assume hG hk hv

theorem assume_eq_none_of_neg {b : Branch} {l : Lit} (hl : [l.neg] ∈ b.formula) :
    b.assume l = none := by
  have hr : Refuted l [l.neg] := by simp [Refuted]
  simp [assume, assume_eq_none_iff.2 ⟨[l.neg], hl, hr⟩]

theorem unordered_assume_comm {k l : Lit} (h : k.var ≠ l.var) (b : Branch) :
    ((b.assume k).bind (assume · l)).map unordered =
      ((b.assume l).bind (assume · k)).map unordered := by
  have hb (i j : Lit) : ((b.assume i).bind (assume · j)).map unordered =
      ((Propagation.assume i b.formula).bind (Propagation.assume j)).map
        fun F => (F, ↑(b.trail ++ [i] ++ [j])) := by
    cases hi : Propagation.assume i b.formula <;> simp [assume, hi, Function.comp_def, unordered]
  have hp : (b.trail ++ [k] ++ [l]).Perm (b.trail ++ [l] ++ [k]) := by
    simpa using List.Perm.append_left b.trail (List.Perm.swap l k [])
  rw [hb, hb, assume_comm h, Multiset.coe_eq_coe.2 hp]

theorem propagate_of_unit? {b : Branch} {l : Lit} (hl : unit? b.formula = some l) :
    b.propagate = (b.assume l).bind propagate := by
  have hp := Propagation.propagate_of_unit? hl
  cases ha : Propagation.assume l b.formula with
  | none => simp [propagate, hp, ha, assume]
  | some G =>
    cases hG : (Propagation.propagate G).residual? <;> simp [propagate, hp, ha, assume, hG]

theorem unordered_propagate_congr {b c : Branch} (h : b.unordered = c.unordered) :
    b.propagate.map unordered = c.propagate.map unordered := by
  obtain ⟨hf, ht⟩ := unordered_eq_iff.1 h
  simp only [propagate, hf, Option.map_map]
  congr 1
  funext F
  exact unordered_eq_iff.2 ⟨rfl, ht.append_right _⟩

theorem unordered_bind_propagate_congr {x y : Option Branch}
    (h : x.map unordered = y.map unordered) :
    (x.bind propagate).map unordered = (y.bind propagate).map unordered := by
  cases x with
  | none => cases y <;> simp at h ⊢
  | some b =>
    cases y with
    | none => simp at h
    | some c => exact unordered_propagate_congr (Option.some.inj h)

/-- Whichever unit clause is taken up first, propagation comes to the same. Two units of one
variable are equal or contradict each other. Two of different variables can change places,
and what follows each of them is settled by induction. -/
theorem unordered_propagate_of_unit {b : Branch} {l : Lit} (hl : [l] ∈ b.formula) :
    b.propagate.map unordered = ((b.assume l).bind propagate).map unordered := by
  induction hn : b.formula.length using Nat.strongRecOn generalizing b l with
  | ind n ih =>
    have later {k j : Lit} (hk : [k] ∈ b.formula) (hj : [j] ∈ b.formula) (hv : j.var ≠ k.var) :
        ((b.assume k).bind propagate).map unordered =
          (((b.assume k).bind (assume · j)).bind propagate).map unordered := by
      cases hc : b.assume k with
      | none => rfl
      | some c =>
        have hlt := length_assume_lt hk hc
        exact ih _ (hn ▸ hlt) (unit_mem_of_assume hc hj hv) rfl
    cases hu : unit? b.formula with
    | none => exact absurd hl (unit?_eq_none_iff.1 hu l)
    | some k =>
      have hk := mem_of_unit? hu
      rw [propagate_of_unit? hu]
      by_cases hv : k.var = l.var
      · rcases Lit.var_eq_iff.1 hv with rfl | rfl
        · rfl
        · rw [assume_eq_none_of_neg hk, assume_eq_none_of_neg (by simpa using hl)]
      · calc ((b.assume k).bind propagate).map unordered
            = (((b.assume k).bind (assume · l)).bind propagate).map unordered :=
              later hk hl (Ne.symm hv)
          _ = (((b.assume l).bind (assume · k)).bind propagate).map unordered :=
              unordered_bind_propagate_congr (unordered_assume_comm hv b)
          _ = ((b.assume l).bind propagate).map unordered := (later hl hk hv).symm

/-- One step of unit propagation in no fixed order: the literal of some unit clause is
assumed. -/
inductive UnitStep : Option Branch → Option Branch → Prop
  | assume {b : Branch} {l : Lit} : [l] ∈ b.formula → UnitStep (some b) (b.assume l)

theorem UnitStep.of_eq {b : Branch} {l : Lit} {x : Option Branch} (hl : [l] ∈ b.formula)
    (hx : b.assume l = x) : UnitStep (some b) x := hx ▸ .assume hl

/-- Some run of unit propagation that cannot go on ends in `x`, where no branch stands for a
contradiction. -/
def Settles (b : Branch) (x : Option Branch) : Prop :=
  ReflTransGen UnitStep (some b) x ∧ ∀ y, ¬ UnitStep x y

theorem wellFounded_unitStep : WellFounded fun x y => UnitStep y x := by
  -- a step leaves fewer clauses, or a contradiction, which ranks below every branch
  refine Subrelation.wf ?_ (measure fun x : Option Branch => x.elim 0 (·.formula.length + 1)).wf
  rintro x y ⟨hl⟩
  rename_i b l
  show (b.assume l).elim 0 (·.formula.length + 1) < b.formula.length + 1
  cases hc : b.assume l with
  | none => exact Nat.succ_pos _
  | some c => exact Nat.succ_lt_succ (length_assume_lt hl hc)

theorem not_unitStep_iff {b : Branch} :
    (∀ y, ¬ UnitStep (some b) y) ↔ ∀ l, [l] ∉ b.formula := by
  constructor
  · intro h l hl
    exact h _ (.assume hl)
  · rintro h y ⟨hl⟩
    exact h _ hl

theorem not_unitStep_none (y : Option Branch) : ¬ UnitStep none y := by
  rintro ⟨⟩

theorem reflTransGen_of_unitSteps {F G : Formula} {U : List Lit} (h : UnitSteps F U G)
    (T : List Lit) : ReflTransGen UnitStep (some ⟨F, T⟩) (some ⟨G, T ++ U⟩) := by
  induction h generalizing T with
  | done F => simpa using ReflTransGen.refl
  | @step F H G l U hl ha _ ih =>
    have hs : UnitStep (some ⟨F, T⟩) (some ⟨H, T ++ [l]⟩) := .of_eq hl (by simp [assume, ha])
    exact ReflTransGen.head hs (by simpa using ih (T ++ [l]))

theorem settles_propagate (b : Branch) : b.Settles b.propagate := by
  cases hG : (Propagation.propagate b.formula).residual? with
  | none =>
    obtain ⟨G, l, hs, hl, ha⟩ := unitSteps_of_propagate_none hG
    have hb : b.propagate = none := by simp [propagate, hG]
    have hn (T : List Lit) : UnitStep (some ⟨G, T⟩) none := .of_eq hl (by simp [assume, ha])
    rw [hb]
    exact ⟨(reflTransGen_of_unitSteps hs b.trail).tail (hn _), not_unitStep_none⟩
  | some G =>
    obtain ⟨hs, hu⟩ := unitSteps_of_propagate hG
    have hb : b.propagate = some ⟨G, b.trail ++ (Propagation.propagate b.formula).forced⟩ := by
      simp [propagate, hG]
    rw [hb]
    exact ⟨reflTransGen_of_unitSteps hs b.trail, not_unitStep_iff.2 hu⟩

/-- No run changes what propagation comes to. -/
theorem unordered_propagate_of_run {x y : Option Branch} (h : ReflTransGen UnitStep x y) :
    (x.bind propagate).map unordered = (y.bind propagate).map unordered := by
  induction h with
  | refl => rfl
  | tail _ hs ih =>
    obtain ⟨hl⟩ := hs
    exact ih.trans (unordered_propagate_of_unit hl)

theorem trail_of_run {b c : Branch} (h : ReflTransGen UnitStep (some b) (some c)) :
    b.trail <+: c.trail := by
  generalize hx : some c = x at h
  induction h generalizing c with
  | refl =>
    cases hx
    exact List.prefix_refl _
  | tail _ hs ih =>
    obtain ⟨hl⟩ := hs
    rename_i d l _
    obtain ⟨G, -, rfl⟩ := Option.map_eq_some_iff.1 hx.symm
    exact (ih rfl).trans (List.prefix_append _ _)

theorem Settles.unordered_eq {b : Branch} {x : Option Branch} (h : b.Settles x) :
    x.map unordered = b.propagate.map unordered := by
  have hr : b.propagate.map unordered = (x.bind propagate).map unordered :=
    unordered_propagate_of_run h.1
  cases x with
  | none => exact hr.symm
  | some c =>
    rw [hr, Option.bind_some, propagate_of_not_unit (not_unitStep_iff.1 h.2)]

/-- Unit propagation comes to the same in every order. No run goes on for ever, and what is
computed is the end of a run. Where that is a contradiction, so is the end of every other run.
Where it is a branch, every run ends with the same formula, and has put the same literals on
the trail in some order. -/
theorem propagate_confluent :
    (WellFounded fun x y => UnitStep y x) ∧
    ∀ b : Branch, b.Settles b.propagate ∧
      (b.propagate = none → ∀ x, b.Settles x → x = none) ∧
      ∀ c, b.propagate = some c → ∃ U, c.trail = b.trail ++ U ∧
        ∀ x, b.Settles x → ∃ V, x = some ⟨c.formula, b.trail ++ V⟩ ∧ V.Perm U := by
  refine ⟨wellFounded_unitStep, fun b => ⟨settles_propagate b, ?_, ?_⟩⟩
  · intro hb x hx
    simpa [hb] using hx.unordered_eq
  · intro c hc
    obtain ⟨U, hU⟩ := trail_of_run (hc ▸ (settles_propagate b).1)
    refine ⟨U, hU.symm, fun x hx => ?_⟩
    have he := hx.unordered_eq
    rw [hc, Option.map_some] at he
    obtain ⟨d, rfl, hd⟩ := Option.map_eq_some_iff.1 he
    obtain ⟨hf, ht⟩ := unordered_eq_iff.1 hd
    obtain ⟨V, hV⟩ := trail_of_run hx.1
    rw [← hV, ← hU, List.perm_append_left_iff] at ht
    exact ⟨V, by rw [← hf, hV], ht⟩

def named (ns : List Int) : List Lit := ns.filterMap Lit.ofDimacs?

def twoUnits : Branch := ⟨[named [1], named [2], named [-1, -2, 3, 4]], named [5]⟩

def clashingUnits : Branch := ⟨[named [1], named [2], named [3], named [-3]], []⟩

theorem settles_twoUnits : twoUnits.Settles (some ⟨[named [3, 4]], named [5, 2, 1]⟩) := by
  have h1 : UnitStep (some twoUnits) (some ⟨[named [1], named [-1, 3, 4]], named [5, 2]⟩) :=
    .of_eq (l := ⟨⟨2, by decide, by decide⟩, true⟩) (by decide) (by decide)
  have h2 : UnitStep (some ⟨[named [1], named [-1, 3, 4]], named [5, 2]⟩)
      (some ⟨[named [3, 4]], named [5, 2, 1]⟩) :=
    .of_eq (l := ⟨⟨1, by decide, by decide⟩, true⟩) (by decide) (by decide)
  refine ⟨(ReflTransGen.single h1).tail h2, not_unitStep_iff.2 ?_⟩
  exact unit?_eq_none_iff.1 (by decide)

/-- This run meets the contradiction at once, and the computed one only after two steps. -/
theorem settles_clashingUnits : clashingUnits.Settles none :=
  ⟨.single (.of_eq (l := ⟨⟨3, by decide, by decide⟩, true⟩) (by decide) (by decide)),
    not_unitStep_none⟩

theorem propagate_confluent_units :
    twoUnits.propagate = some ⟨[named [3, 4]], named [5, 1, 2]⟩ ∧
    twoUnits.Settles (some ⟨[named [3, 4]], named [5, 2, 1]⟩) ∧
    (∃ U V, named [5, 1, 2] = named [5] ++ U ∧ named [5, 2, 1] = named [5] ++ V ∧ V.Perm U) ∧
    clashingUnits.propagate = none ∧ clashingUnits.Settles none ∧
    ∃ x, clashingUnits.Settles x ∧ x = none := by
  have h1 : twoUnits.propagate = some ⟨[named [3, 4]], named [5, 1, 2]⟩ := by decide +kernel
  have h2 : clashingUnits.propagate = none := by decide +kernel
  obtain ⟨U, hU, h⟩ := (propagate_confluent.2 twoUnits).2.2 _ h1
  obtain ⟨V, hV, hVU⟩ := h _ settles_twoUnits
  have hs := settles_propagate clashingUnits
  have hx := (propagate_confluent.2 clashingUnits).2.1 h2 _ hs
  have ht : named [5, 2, 1] = named [5] ++ V := congrArg Branch.trail (Option.some.inj hV)
  exact ⟨h1, settles_twoUnits, ⟨U, V, hU, ht, hVU⟩, h2, settles_clashingUnits, _, hs, hx⟩

end Branch
end DpllSat
