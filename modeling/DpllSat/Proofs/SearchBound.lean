import DpllSat.Proofs.Deadline
import DpllSat.Proofs.Search.Variables
import Mathlib.Algebra.Ring.Nat

/-! How long a search can last. A frame with `n` variables left stands for a binary tree of
height `n`: every turn is a node of it, and every conflict a leaf. -/
namespace DpllSat

namespace Propagation

/-- Propagation, and how often it has called for a literal to be assumed. -/
def propagateCounted (F : Formula) : Outcome × Nat :=
  match _hu : unit? F with
  | none => (⟨[], some F⟩, 0)
  | some l =>
    match _ha : assume l F with
    | none => (⟨[], none⟩, 1)
    | some G =>
      let rest := propagateCounted G
      (⟨l :: rest.1.forced, rest.1.residual?⟩, rest.2 + 1)
termination_by F.length
decreasing_by exact length_assume_lt (mem_of_unit? _hu) _ha

theorem propagateCounted_fst (F : Formula) : (propagateCounted F).1 = propagate F := by
  fun_induction propagateCounted F with
  | case1 F hu => exact (propagate_of_not_unit (unit?_eq_none_iff.1 hu)).symm
  | case2 F l hu ha => simp [propagate_of_unit? hu, ha]
  | case3 F l hu G ha rest ih => simp [propagate_of_unit? hu, ha, rest, ih]
-- one that can be takes its clause away

theorem propagateCounted_snd_le (F : Formula) : (propagateCounted F).2 ≤ F.length := by
  fun_induction propagateCounted F with
  | case1 F _ => exact Nat.zero_le _
  -- a literal that cannot be assumed is a clause by itself
  | case2 F l hu _ => exact List.length_pos_of_mem (mem_of_unit? hu)
  | case3 F l hu G ha rest ih =>
    have hlt := length_assume_lt (mem_of_unit? hu) ha
    exact Nat.le_trans (Nat.succ_le_succ ih) hlt

end Propagation

namespace Search

/-- The number of nodes of a binary tree of height `f.left`. -/
def Frame.turnBound (f : Frame) : Nat := 2 ^ (f.left + 1) - 1

def Frame.leafBound (f : Frame) : Nat := 2 ^ f.left

def State.turnBound (s : State) : Nat := (s.stack.map Frame.turnBound).sum

def State.leafBound (s : State) : Nat := (s.stack.map Frame.leafBound).sum

namespace Frame

variable {f : Frame}

theorem leafBound_pos (f : Frame) : 0 < f.leafBound := Nat.two_pow_pos _

theorem turnBound_eq (f : Frame) : f.turnBound = 2 * f.leafBound - 1 := by
  rw [turnBound, leafBound, Nat.pow_succ, Nat.mul_comm]

theorem turnBound_pos (f : Frame) : 0 < f.turnBound := by
  have hf := f.leafBound_pos
  rw [turnBound_eq]
  omega

/-- The leaves of a frame that is split are enough for both halves. -/
theorem leafBound_of_split {b c : Branch} (he : f.enter = some b) (hc : b.propagate = some c)
    {v : Var} (hv : Occurs v c.formula) :
    (Frame.mk c (some ⟨v, true⟩)).leafBound + (Frame.mk c (some ⟨v, false⟩)).leafBound ≤
      f.leafBound := by
  have hhalf (p : Bool) : 2 * (Frame.mk c (some ⟨v, p⟩)).leafBound ≤ f.leafBound := by
    have hp : 2 ^ ((Frame.mk c (some ⟨v, p⟩)).left + 1) ≤ 2 ^ f.left :=
      Nat.pow_le_pow_right (by decide) (left_lt_of_split he hc hv p)
    rwa [Nat.pow_succ, Nat.mul_comm] at hp
  have htrue := hhalf true
  have hfalse := hhalf false
  omega

end Frame

variable {weight : Float} {f : Frame} {s t : State} {x : Step} {us : List Turn}

@[simp] theorem State.conflicts_takeUp (s : State) (f : Frame) :
    (s.takeUp f).stats.conflicts = s.stats.conflicts :=
  congrArg (·.stats.conflicts) (takeUp_eq f s.stack s.stats)

theorem turnBound_of_exit (h : Exit weight f s (.more t)) :
    t.turnBound + 1 ≤ f.turnBound + s.turnBound := by
  have hf := f.turnBound_pos
  rcases h.conflict_or_split with ⟨hstack, -⟩ | ⟨b, c, v, he, hc, -, hv, hstack, -⟩
  · rw [State.turnBound, State.turnBound, hstack]
    omega
  · have hle := Frame.leafBound_of_split he hc (Branching.occurs_of_pick hv)
    have htrue := Frame.leafBound_pos ⟨c, some ⟨v, true⟩⟩
    have hfalse := Frame.leafBound_pos ⟨c, some ⟨v, false⟩⟩
    simp only [State.turnBound, hstack, List.map_cons, List.sum_cons, Frame.turnBound_eq]
    omega

/-- A conflict uses up a leaf, and a split shares out the leaves of its frame. -/
theorem conflicts_of_exit (h : Exit weight f s (.more t)) :
    t.stats.conflicts + t.leafBound ≤ s.stats.conflicts + (f.leafBound + s.leafBound) := by
  have hf := f.leafBound_pos
  rcases h.conflict_or_split with ⟨hstack, hs, -⟩ | ⟨b, c, v, he, hc, -, hv, hstack, hs, -⟩
  · rw [State.leafBound, State.leafBound, hstack, hs]
    omega
  · have hle := Frame.leafBound_of_split he hc (Branching.occurs_of_pick hv)
    simp only [State.leafBound, hstack, hs, List.map_cons, List.sum_cons]
    omega

theorem decisions_of_exit (h : Exit weight f s x) :
    x.stats.decisions = s.stats.decisions + f.decision?.toList.length := by
  have htake : (s.takeUp f).stats.decisions = s.stats.decisions + f.decision?.toList.length :=
    congrArg (·.stats.decisions) (takeUp_eq f s.stack s.stats)
  cases h with
  | refused _ => exact htake
  | refuted _ _ => exact htake
  | solved _ _ _ => exact htake
  | stuck _ _ _ _ => exact htake
  | split _ _ _ _ => exact htake

namespace Turns

theorem length_le (h : Turns weight s us x) : us.length ≤ s.turnBound := by
  induction h with
  | nil s => exact Nat.zero_le _
  | @found f rest stats _ _ _ => exact Nat.le_trans f.turnBound_pos (Nat.le_add_right _ _)
  | cons ht _ ih =>
    exact Nat.le_trans (Nat.succ_le_succ ih) (turnBound_of_exit (exit_of_turn ht))

theorem conflicts_le (h : Turns weight s us x) :
    x.stats.conflicts ≤ s.stats.conflicts + s.leafBound := by
  induction h with
  | nil s => exact Nat.le_add_right _ _
  | @found f rest stats stats' trail ht =>
    have hs : stats'.conflicts = stats.conflicts := by
      cases exit_of_turn ht with
      | solved _ _ _ => exact State.conflicts_takeUp ⟨rest, stats⟩ f
    exact hs ▸ Nat.le_add_right _ _
  | cons ht _ ih => exact Nat.le_trans ih (conflicts_of_exit (exit_of_turn ht))

theorem decisions_le (h : Turns weight s us x) :
    x.stats.decisions ≤ s.stats.decisions + us.length := by
  have hone (f : Frame) : f.decision?.toList.length ≤ 1 := by cases f.decision? <;> simp
  induction h with
  | nil s => exact Nat.le_add_right _ _
  | @found f rest stats stats' trail ht =>
    have hd := decisions_of_exit (exit_of_turn ht)
    have hf := hone f
    simp only [Step.stats, List.length_singleton] at hd ⊢
    omega
  | @cons f rest stats t us x ht _ ih =>
    have hd := decisions_of_exit (exit_of_turn ht)
    have hf := hone f
    simp only [Step.stats, List.length_cons] at hd ih ⊢
    omega

theorem decisions_lt {F : Formula} (h : Turns weight (.start F) us x) (hus : 0 < us.length) :
    x.stats.decisions < us.length := by
  cases h with
  | nil => simp at hus
  | @found _ _ _ stats' trail ht =>
    have h0 : stats'.decisions = 0 := decisions_of_exit (exit_of_turn ht)
    show stats'.decisions < 1
    omega
  | @cons _ _ _ t us x ht h =>
    have h0 : t.stats.decisions = 0 := decisions_of_exit (exit_of_turn ht)
    have hle := h.decisions_le
    rw [List.length_cons]
    omega

end Turns
end Search

open Search Solver Propagation

/-- Without a time limit a search on `n` variables comes to an end. It takes up at most as many
frames as a binary tree of height `n` has nodes, all but the first of them with a decision, and
has at most as many conflicts as the tree has leaves. In a frame, propagation calls for no more
literals to be assumed than there are clauses. -/
theorem search_within_tree (weight : Float) (F : Formula) :
    (∃ us x out, Turns weight (.start F) us x ∧ x.outcome? = some out ∧
      (run (scripted fun _ => false) weight (.start F)).run ⟨0, #[]⟩ = (out, .after ⟨0, #[]⟩ us) ∧
      us.length ≤ 2 ^ ((varsOf F).card + 1) - 1 ∧
      out.stats.decisions ≤ 2 ^ ((varsOf F).card + 1) - 2 ∧
      out.stats.conflicts ≤ 2 ^ (varsOf F).card) ∧
    ∀ G, (propagateCounted G).1 = propagate G ∧ (propagateCounted G).2 ≤ G.length := by
  constructor
  · obtain ⟨us, x, out, hus, hx⟩ := exists_turns weight F
    have hrun := run_of_not_expired (fun _ => false) hus hx ⟨0, #[]⟩ fun _ _ => rfl
    have hlen : us.length ≤ 2 ^ ((varsOf F).card + 1) - 1 := hus.length_le
    have hdec := hus.decisions_lt (length_pos_of_outcome? hus hx)
    have hcon : x.stats.conflicts ≤ 0 + 2 ^ (varsOf F).card := hus.conflicts_le
    rw [Step.stats_of_outcome? hx] at hdec hcon
    exact ⟨us, x, out, hus, hx, hrun, hlen, by omega, by omega⟩
  · exact fun G => ⟨propagateCounted_fst G, propagateCounted_snd_le G⟩

end DpllSat
