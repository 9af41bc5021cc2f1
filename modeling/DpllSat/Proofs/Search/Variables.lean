import DpllSat.Proofs.Search.Turns
import DpllSat.Proofs.UnitPropagation
import Mathlib.Data.Finset.Card

/-! How many variables are left to the frames of a search. A literal that is assumed takes its
variable out of the formula, so a frame that is split has more of them left than its halves. -/
namespace DpllSat

def varsOf (F : Formula) : Finset Var := (F.flatten.map Lit.var).toFinset

theorem mem_varsOf {v : Var} {F : Formula} : v ∈ varsOf F ↔ Occurs v F := by
  simp [varsOf, Occurs]

namespace Propagation

variable {F G : Formula} {U : List Lit} {l : Lit}

theorem varsOf_assume (h : assume l F = some G) : varsOf G ⊆ (varsOf F).erase l.var := by
  intro v hv
  rw [mem_varsOf, ← reduce_of_assume h] at hv
  obtain ⟨ho, hne⟩ := occurs_of_reduce hv
  exact Finset.mem_erase.2 ⟨(hne l (by simp)).symm, mem_varsOf.2 ho⟩

theorem card_varsOf_assume (h : assume l F = some G) (hl : Occurs l.var F) :
    (varsOf G).card + 1 ≤ (varsOf F).card := by
  have hle := Finset.card_le_card (varsOf_assume h)
  have he := Finset.card_erase_add_one (mem_varsOf.2 hl)
  omega

theorem UnitSteps.card_varsOf (h : UnitSteps F U G) :
    U.length + (varsOf G).card ≤ (varsOf F).card := by
  induction h with
  | done F => simp
  | @step F H G l U hl ha _ ih =>
    have hlt := card_varsOf_assume ha ⟨[l], hl, l, by simp, rfl⟩
    rw [List.length_cons]
    omega

end Propagation

open Propagation

theorem Branch.card_varsOf_propagate {b c : Branch} (hc : b.propagate = some c) :
    c.trail.length + (varsOf c.formula).card ≤
      b.trail.length + (varsOf b.formula).card := by
  obtain ⟨G, hG, rfl⟩ := Option.map_eq_some_iff.1 hc
  have hle := (unitSteps_of_propagate hG).1.card_varsOf
  simp only [List.length_append]
  omega

theorem Branch.trail_length_le_propagate {b c : Branch} (hc : b.propagate = some c) :
    b.trail.length ≤ c.trail.length := by
  obtain ⟨G, -, rfl⟩ := Option.map_eq_some_iff.1 hc
  simp

namespace Search
namespace Frame

/-- How many variables can be left once the decision has been assumed. -/
def left (f : Frame) : Nat :=
  match f.decision? with
  | none => (varsOf f.branch.formula).card
  | some l => ((varsOf f.branch.formula).erase l.var).card

def depth (f : Frame) : Nat := f.branch.trail.length + f.decision?.toList.length

variable {f : Frame} {b c : Branch}

theorem trail_length_of_enter (he : f.enter = some b) : b.trail.length = f.depth := by
  unfold enter at he
  unfold depth
  cases hd : f.decision? with
  | none =>
    simp only [hd, Option.some.injEq] at he
    simp [he]
  | some l =>
    simp only [hd] at he
    obtain ⟨G, -, rfl⟩ := Option.map_eq_some_iff.1 he
    simp

theorem card_varsOf_of_enter (he : f.enter = some b) : (varsOf b.formula).card ≤ f.left := by
  unfold enter at he
  unfold left
  cases hd : f.decision? with
  | none =>
    simp only [hd, Option.some.injEq] at he
    simp [he]
  | some l =>
    simp only [hd] at he
    obtain ⟨G, hG, rfl⟩ := Option.map_eq_some_iff.1 he
    exact Finset.card_le_card (varsOf_assume hG)

theorem left_add_one {v : Var} (hv : Occurs v c.formula) (p : Bool) :
    (Frame.mk c (some ⟨v, p⟩)).left + 1 = (varsOf c.formula).card :=
  Finset.card_erase_add_one (mem_varsOf.2 hv)

/-- Both halves of a split have fewer variables left than the frame that was taken up. -/
theorem left_lt_of_split (he : f.enter = some b) (hc : b.propagate = some c) {v : Var}
    (hv : Occurs v c.formula) (p : Bool) : (Frame.mk c (some ⟨v, p⟩)).left < f.left := by
  have h1 := card_varsOf_of_enter he
  have h2 := Branch.card_varsOf_propagate hc
  have h3 := Branch.trail_length_le_propagate hc
  have h4 := left_add_one hv p
  omega

/-- What the trail of a half is longer, it has variables fewer. -/
theorem depth_add_left_of_split (he : f.enter = some b) (hc : b.propagate = some c) {v : Var}
    (hv : Occurs v c.formula) (p : Bool) :
    (Frame.mk c (some ⟨v, p⟩)).depth + (Frame.mk c (some ⟨v, p⟩)).left ≤ f.depth + f.left := by
  have h1 := card_varsOf_of_enter he
  have h2 := Branch.card_varsOf_propagate hc
  have h3 := trail_length_of_enter he
  have h4 := left_add_one hv p
  have h5 : (Frame.mk c (some ⟨v, p⟩)).depth = c.trail.length + 1 := rfl
  omega

end Frame
end Search
end DpllSat
