import DpllSat.Instance
import Mathlib.Data.List.FinRange
import Mathlib.Order.Fin.Basic

/-! What is drawn from a source of random choices, whatever state it is in: as many elements as were
asked for, and a literal for each variable in turn. -/
namespace DpllSat
namespace Instance

open DpllSat.Random (Source)

variable {σ : Type}

section

variable {α β γ : Type} {f : α → σ → β × σ}

theorem drawEach_go (xs : List α) (done : List β) (s : σ) :
    (drawEach.go f xs done s).1 = done.reverse ++ (drawEach.go f xs [] s).1 := by
  induction xs generalizing done s with
  | nil => simp [drawEach.go]
  | cons x xs ih =>
    rw [drawEach.go, drawEach.go, ih, ih [(f x s).1]]
    simp

theorem drawEach_cons (x : α) (xs : List α) (s : σ) :
    (drawEach f (x :: xs) s).1 = (f x s).1 :: (drawEach f xs (f x s).2).1 := by
  rw [drawEach, drawEach.go, drawEach_go]
  rfl

/-- What each draw keeps of its argument, all of them keep. -/
theorem map_drawEach {g : β → γ} {h : α → γ} (hf : ∀ x s, g (f x s).1 = h x) (xs : List α)
    (s : σ) : (drawEach f xs s).1.map g = xs.map h := by
  induction xs generalizing s with
  | nil => rfl
  | cons x xs ih => rw [drawEach_cons, List.map_cons, List.map_cons, hf, ih]

theorem forall_mem_drawEach {P : β → Prop} (hf : ∀ x s, P (f x s).1) (xs : List α)
    (s : σ) : ∀ y ∈ (drawEach f xs s).1, P y := by
  induction xs generalizing s with
  | nil => simp [drawEach, drawEach.go]
  | cons x xs ih =>
    rw [drawEach_cons, List.forall_mem_cons]
    exact ⟨hf x s, ih _⟩

@[simp] theorem length_drawEach (f : α → σ → β × σ) (xs : List α) (s : σ) :
    (drawEach f xs s).1.length = xs.length := by
  have hm := map_drawEach (f := f) (g := fun _ => ()) (h := fun _ => ()) (fun _ _ => rfl) xs s
  simpa using congrArg List.length hm

end

variable {src : Source σ}

theorem map_var_drawEach (vs : List Var) (s : σ) :
    (drawEach (drawLit src) vs s).1.map Lit.var = vs := by
  rw [map_drawEach (h := id) (fun _ _ => rfl), List.map_id]

/-- The variables of a clause are in ascending order, and all different. -/
theorem exists_map_var_drawClause {sh : Shape} (hsrc : src.Lawful sh.vars sh.width) (s : σ) :
    ∃ picked : List (Fin sh.vars), picked.length = sh.width ∧ picked.Pairwise (· < ·) ∧
      (drawClause src sh s).1.map Lit.var = picked.map sh.var := by
  let picked := (src.sample sh.width_pos sh.width_le s).1
  have hle : (picked.mergeSort fun i j => i ≤ j).Pairwise (· ≤ ·) := by
    have htrans (i j k : Fin sh.vars) (hij : decide (i ≤ j) = true) (hjk : decide (j ≤ k) = true) :
        decide (i ≤ k) = true :=
      decide_eq_true (le_trans (of_decide_eq_true hij) (of_decide_eq_true hjk))
    have htotal (i j : Fin sh.vars) : (decide (i ≤ j) || decide (j ≤ i)) = true := by
      simpa using le_total i j
    simpa using List.pairwise_mergeSort htrans htotal picked
  have hnodup : (picked.mergeSort fun i j => i ≤ j).Nodup :=
    (List.mergeSort_perm _ _).nodup_iff.2 (hsrc.nodup _ _ _)
  refine ⟨picked.mergeSort fun i j => i ≤ j, by simp [picked, hsrc.length], ?_,
    map_var_drawEach _ _⟩
  exact hle.imp₂ (fun i j hij hne => lt_of_le_of_ne hij hne) hnodup

end Instance
end DpllSat
