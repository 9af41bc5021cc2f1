import Mathlib.Data.Prod.Lex

/-! The order of floats. All but NaN are ordered by class, from negative to positive infinity, and
within a class by exponent and significand. So any two of them can be compared, and the comparison
is transitive. -/
namespace DpllSat
namespace Branching

open Float.Model UnpackedFloat

/-- The place of a float in the order: its class, and its exponent and significand if it is neither
zero nor infinite. -/
def rank : UnpackedFloat → Int ×ₗ Int ×ₗ Int
  | infinity .negative => toLex (-2, toLex (0, 0))
  | finite .negative m e _ => toLex (-1, toLex (-e, -m))
  | zero _ => toLex (0, toLex (0, 0))
  | finite .positive m e _ => toLex (1, toLex (e, m))
  | infinity .positive => toLex (2, toLex (0, 0))
  | notANumber => toLex (3, toLex (0, 0))

theorem isLE_then_iff {i j : Int} {m n : Nat} :
    ((compare i j).then (compare m n)).isLE = true ↔ i < j ∨ i = j ∧ m ≤ n := by
  rw [Ordering.isLE_then_iff_or, Int.compare_eq_lt, Int.compare_eq_eq, Nat.isLE_compare]

theorem isGE_then_iff {i j : Int} {m n : Nat} :
    ((compare i j).then (compare m n)).isGE = true ↔ j < i ∨ i = j ∧ n ≤ m := by
  rw [← Ordering.isLE_swap, Ordering.swap_then, Int.compare_swap, Nat.compare_swap, isLE_then_iff,
    @eq_comm _ j]

theorem le_iff_rank_le {a b : UnpackedFloat} (ha : a ≠ notANumber) (hb : b ≠ notANumber) :
    a.le b = true ↔ rank a ≤ rank b := by
  rcases a with (_ | _) | _ | _ | ⟨_ | _, m, e, hm⟩
  case notANumber => exact absurd rfl ha
  all_goals
    rcases b with (_ | _) | _ | _ | ⟨_ | _, n, f, hn⟩
    case notANumber => exact absurd rfl hb
    all_goals
      clear ha hb
      dsimp only [UnpackedFloat.le, UnpackedFloat.compare, rank]
      simp [Prod.Lex.toLex_le_toLex, isLE_then_iff, isGE_then_iff]
  -- what is left compares the signs of two infinities
  all_goals rfl

theorem ne_notANumber {x : Float} (h : x.isNaN = false) : x.toModel.unpack ≠ notANumber := by
  intro hx
  have hn : x.isNaN = true := congrArg UnpackedFloat.isNaN hx
  exact Bool.false_ne_true (h.symm.trans hn)

theorem float_le_iff {x y : Float} (hx : x.isNaN = false) (hy : y.isNaN = false) :
    x ≤ y ↔ rank x.toModel.unpack ≤ rank y.toModel.unpack := by
  rw [← le_iff_rank_le (ne_notANumber hx) (ne_notANumber hy)]
  exact decide_eq_true_iff

theorem float_le_total {x y : Float} (hx : x.isNaN = false) (hy : y.isNaN = false) :
    x ≤ y ∨ y ≤ x := by
  rw [float_le_iff hx hy, float_le_iff hy hx]
  exact le_total _ _

theorem float_le_trans {x y z : Float} (hx : x.isNaN = false) (hy : y.isNaN = false)
    (hz : z.isNaN = false) (hxy : x ≤ y) (hyz : y ≤ z) : x ≤ z := by
  rw [float_le_iff hx hy] at hxy
  rw [float_le_iff hy hz] at hyz
  rw [float_le_iff hx hz]
  exact hxy.trans hyz

end Branching
end DpllSat
