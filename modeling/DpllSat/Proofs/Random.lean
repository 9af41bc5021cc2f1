import DpllSat.Random.Sample
import Mathlib.Data.List.FinRange

/-! Samples from a stream of words. The methods that draw a fixed number of words keep the laws of a
source, whatever the words are. -/
namespace DpllSat
namespace Random

theorem length_growing {n : Nat} (i : Nat) (hi : i ≤ n) (chosen : List (Fin n)) (s : Stream) :
    (growing i hi chosen s).1.length = chosen.length + i := by
  induction i generalizing chosen s with
  | zero => rfl
  | succ i ih =>
    rw [growing, ih, List.length_cons]
    omega

/-- An index up to the top joins if it is new, and else the top does, which is above all others. -/
theorem nodup_join {n : Nat} {chosen : List (Fin n)} (top drawn : Fin n)
    (hle : drawn.val ≤ top.val) (hlt : ∀ x ∈ chosen, x.val < top.val) (hc : chosen.Nodup) :
    (∀ x ∈ (if chosen.contains drawn then top else drawn) :: chosen, x.val ≤ top.val) ∧
      ((if chosen.contains drawn then top else drawn) :: chosen).Nodup := by
  have hbelow : ∀ x ∈ chosen, x.val ≤ top.val := fun x hx => Nat.le_of_lt (hlt x hx)
  by_cases hmem : chosen.contains drawn = true
  · rw [if_pos hmem]
    exact ⟨List.forall_mem_cons.2 ⟨Nat.le_refl _, hbelow⟩,
      List.nodup_cons.2 ⟨fun h => Nat.lt_irrefl _ (hlt top h), hc⟩⟩
  · rw [if_neg hmem]
    rw [List.contains_iff_mem] at hmem
    exact ⟨List.forall_mem_cons.2 ⟨hle, hbelow⟩, List.nodup_cons.2 ⟨hmem, hc⟩⟩

theorem nodup_growing {n : Nat} (i : Nat) (hi : i ≤ n) (chosen : List (Fin n)) (s : Stream)
    (hlt : ∀ x ∈ chosen, x.val < n - i) (hc : chosen.Nodup) :
    (growing i hi chosen s).1.Nodup := by
  induction i generalizing chosen s with
  | zero => exact hc
  | succ i ih =>
    have htop : n - (i + 1) < n := by omega
    have hjoin (t : Fin (n - (i + 1) + 1)) :=
      nodup_join ⟨n - (i + 1), htop⟩ ⟨t, by omega⟩ (Nat.le_of_lt_succ t.isLt) hlt hc
    rw [growing]
    apply ih _ _ _ (fun x hx => ?_) (hjoin _).2
    have hle : x.val ≤ n - (i + 1) := (hjoin _).1 x hx
    omega

theorem perm_shuffle {n : Nat} (r i : Nat) (h : i + r ≤ n) (v : Vector (Fin n) n) (s : Stream) :
    (shuffle r i h v s).1.Perm v := by
  induction r generalizing i v s with
  | zero => exact .refl v
  | succ r ih =>
    rw [shuffle]
    exact (ih _ _ _ _).trans (Vector.swap_perm _ _)

theorem nodup_take_shuffle {n k : Nat} (hk : 0 + k ≤ n) (s : Stream) :
    ((shuffle k 0 hk (Vector.ofFn id) s).1.take k).toList.Nodup := by
  have hp := Vector.perm_iff_toList_perm.1 (perm_shuffle k 0 hk (Vector.ofFn id) s)
  rw [Vector.toList_ofFn, List.ofFn_id] at hp
  rw [Vector.toList_take]
  exact (hp.nodup_iff.2 (List.nodup_finRange n)).sublist (List.take_sublist k _)

theorem chacha_lawful {n k : Nat} (h : Method.choose n k ≠ .rejection) : chacha.Lawful n k := by
  constructor
  · intro hk hn s
    show (sample hk hn s).1.length = k
    unfold sample
    split
    · rw [length_growing, List.length_nil, Nat.zero_add]
    · simp [hn]
    · contradiction
  · intro hk hn s
    show (sample hk hn s).1.Nodup
    unfold sample
    split
    · exact nodup_growing k hn [] s (by simp) .nil
    · exact nodup_take_shuffle (by omega) s
    · contradiction

/-- Samples of up to 162 indices are drawn by those methods. -/
theorem chacha_lawful_of_lt {n k : Nat} (h : k < 163) : chacha.Lawful n k := by
  have hne (b : Bool) : (if b = true then Method.inPlace else .growing) ≠ .rejection := by
    cases b <;> decide
  apply chacha_lawful
  unfold Method.choose
  rw [if_pos h]
  exact hne _

end Random
end DpllSat
