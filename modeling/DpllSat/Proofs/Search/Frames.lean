import DpllSat.Proofs.Branching.Choice
import DpllSat.Proofs.Search.Turns
import DpllSat.Proofs.UnitPropagation

/-! What holds of every frame that is ever pending: its formula is the root formula
reduced by its trail, and nothing else has left a trace in it. -/
namespace DpllSat

open Propagation

/-- The branch stands where its trail leads from the formula `F`. -/
structure Branch.Residual (F : Formula) (b : Branch) : Prop where
  nodup_var : (b.trail.map Lit.var).Nodup
  occurs : ∀ l ∈ b.trail, Occurs l.var F
  formula_eq : b.formula = reduce b.trail F
  nil_notMem : [] ∉ b.formula

namespace Branch
namespace Residual

variable {F : Formula} {b c : Branch}

theorem root (hF : [] ∉ F) : Residual F ⟨F, []⟩ :=
  ⟨by simp, by simp, (reduce_nil F).symm, hF⟩

theorem occurs_formula (h : Residual F b) {v : Var} (hv : Occurs v b.formula) :
    Occurs v F ∧ ∀ l ∈ b.trail, l.var ≠ v := by
  rw [h.formula_eq] at hv
  exact occurs_of_reduce hv

theorem not_occurs (h : Residual F b) : ∀ l ∈ b.trail, ¬ Occurs l.var b.formula :=
  fun l hl ho => (h.occurs_formula ho).2 l hl rfl

/-- A trail can grow by literals of the formula that is left. -/
theorem extend (h : Residual F b) {U : List Lit} {G : Formula} (hU : (U.map Lit.var).Nodup)
    (ho : ∀ l ∈ U, Occurs l.var b.formula) (hG : reduce U b.formula = G) (hn : [] ∉ G) :
    Residual F ⟨G, b.trail ++ U⟩ := by
  have hne : ∀ l ∈ U, ∀ k ∈ b.trail, k.var ≠ l.var := fun l hl => (h.occurs_formula (ho l hl)).2
  constructor
  · rw [List.map_append, List.nodup_append]
    refine ⟨h.nodup_var, hU, ?_⟩
    intro v hv w hw
    obtain ⟨k, hk, rfl⟩ := List.mem_map.1 hv
    obtain ⟨l, hl, rfl⟩ := List.mem_map.1 hw
    exact hne l hl k hk
  · intro l hl
    rcases List.mem_append.1 hl with hl | hl
    · exact h.occurs l hl
    · exact (h.occurs_formula (ho l hl)).1
  · have hneg : ∀ l ∈ U, l.neg ∉ b.trail := fun l hl hm => hne l hl l.neg hm rfl
    rw [reduce_append hneg, ← h.formula_eq, hG]
  · exact hn

theorem assume (h : Residual F b) {l : Lit} (hl : Occurs l.var b.formula)
    (hc : b.assume l = some c) : Residual F c := by
  obtain ⟨G, hG, rfl⟩ := Option.map_eq_some_iff.1 hc
  exact h.extend (by simp) (by simpa using hl) (reduce_of_assume hG)
    fun hn => h.nil_notMem (nil_mem_of_assume hG hn)

theorem propagate (h : Residual F b) (hc : b.propagate = some c) : Residual F c := by
  obtain ⟨G, hG, rfl⟩ := Option.map_eq_some_iff.1 hc
  obtain ⟨hs, -⟩ := unitSteps_of_propagate hG
  exact h.extend hs.nodup_var hs.occurs hs.reduce_eq fun hn => h.nil_notMem (hs.nil_mem hn)

theorem mem_trail (h : Residual F b) (hb : b.formula = []) :
    ∀ c ∈ F, ∃ l ∈ c, l ∈ b.trail := by
  intro c hc
  by_contra hn
  have hd : reduceClause b.trail c ∈ reduce b.trail F :=
    mem_reduce.2 ⟨c, hc, fun l hl hlc => hn ⟨l, hlc, hl⟩, rfl⟩
  rw [← h.formula_eq, hb] at hd
  cases hd

end Residual

end Branch

namespace Search

/-- What holds of a pending frame. Only the root comes without a decision. -/
structure Frame.Sound (F : Formula) (f : Frame) : Prop where
  residual : f.branch.Residual F
  decided : f = ⟨⟨F, []⟩, none⟩ ∨
    ∃ l, f.decision? = some l ∧ Occurs l.var f.branch.formula ∧ ∀ k, [k] ∉ f.branch.formula

namespace Frame

variable {F : Formula} {f : Frame} {b c : Branch}

theorem Sound.root (hF : [] ∉ F) : Sound F ⟨⟨F, []⟩, none⟩ := ⟨.root hF, Or.inl rfl⟩

theorem Sound.enter (h : f.Sound F) (he : f.enter = some b) : b.Residual F := by
  rcases h.decided with hf | ⟨l, hl, ho, -⟩
  · rw [hf] at he
    cases he
    exact hf ▸ h.residual
  · simp only [Frame.enter, hl] at he
    exact h.residual.assume ho he

theorem Sound.settled (h : f.Sound F) (he : f.enter = some b) (hc : b.propagate = some c) :
    c.Residual F := (h.enter he).propagate hc

/-- Both halves of a split inherit all that the frame that was taken up had. -/
theorem Sound.split (h : f.Sound F) (he : f.enter = some b) (hc : b.propagate = some c)
    {l : Lit} (hl : Occurs l.var c.formula) : Sound F ⟨c, some l⟩ :=
  ⟨h.settled he hc, Or.inr ⟨l, rfl, hl, Branch.not_unit_of_propagate hc⟩⟩

end Frame

theorem sound_of_exit {weight : Float} {F : Formula} {f : Frame} {s t : State}
    (hf : f.Sound F) (hs : ∀ g ∈ s.stack, g.Sound F) (h : Exit weight f s (.more t)) :
    ∀ g ∈ t.stack, g.Sound F := by
  rcases h.conflict_or_split with ⟨hstack, -⟩ | ⟨b, c, v, he, hc, -, hv, hstack, -⟩
  · rw [hstack]
    exact hs
  · have ho := Branching.occurs_of_pick hv
    rw [hstack, List.forall_mem_cons, List.forall_mem_cons]
    exact ⟨hf.split he hc ho, hf.split he hc ho, hs⟩

theorem sound_of_reachable {weight : Float} {F : Formula} (hF : [] ∉ F) {s : State}
    (h : Reachable weight F s) : ∀ f ∈ s.stack, f.Sound F := by
  refine h.invariant (P := fun s => ∀ f ∈ s.stack, f.Sound F)
    (by simpa [State.start] using Frame.Sound.root hF) ?_
  intro f rest stats t hs ht
  rw [List.forall_mem_cons] at hs
  exact sound_of_exit hs.1 hs.2 ht

theorem exists_pick_of_reachable {weight : Float} {F : Formula} (hF : [] ∉ F) {s : State}
    (h : Reachable weight F s) {f : Frame} {rest : List Frame} {b c : Branch}
    (hs : s.stack = f :: rest) (he : f.enter = some b) (hc : b.propagate = some c)
    (hn : c.formula ≠ []) : ∃ v, Branching.pick weight c.formula = some v := by
  have hf := sound_of_reachable hF h f (hs ▸ List.mem_cons_self)
  exact Branching.exists_pick weight hn (hf.settled he hc).nil_notMem

/-- In every state that the search reaches from a formula without empty clauses, each frame
has a clash-free trail over the variables of the root and the root formula reduced by it.
No clause of that is empty. But for the root, no clause of it is a unit and the decision is
on a variable of it. So a variable is always found where one is to be picked. -/
theorem frames_of_reachable {weight : Float} {F : Formula} (hF : [] ∉ F) {s : State}
    (h : Reachable weight F s) :
    (∀ f ∈ s.stack,
      (f.branch.trail.map Lit.var).Nodup ∧
      (∀ l ∈ f.branch.trail, Occurs l.var F) ∧
      f.branch.formula = reduce f.branch.trail F ∧
      (∀ l ∈ f.branch.trail, ¬ Occurs l.var f.branch.formula) ∧
      [] ∉ f.branch.formula ∧
      (f = ⟨⟨F, []⟩, none⟩ ∨ ∃ l, f.decision? = some l ∧ Occurs l.var f.branch.formula ∧
        ∀ k, [k] ∉ f.branch.formula)) ∧
    ∀ f rest b c, s.stack = f :: rest → f.enter = some b → b.propagate = some c →
      c.formula ≠ [] → ∃ v, Branching.pick weight c.formula = some v := by
  constructor
  · intro f hf
    have hs := sound_of_reachable hF h f hf
    exact ⟨hs.residual.nodup_var, hs.residual.occurs, hs.residual.formula_eq,
      hs.residual.not_occurs, hs.residual.nil_notMem, hs.decided⟩
  · intro f rest b c hs he hc hn
    exact exists_pick_of_reachable hF h hs he hc hn

def branching : Formula := [[1, 2], [-1, 2], [1, -3]].map (List.filterMap Lit.ofDimacs?)

theorem not_unit_branching : ∀ l, [l] ∉ branching :=
  Propagation.unit?_eq_none_iff.1 (by decide)

theorem exists_split_branching (weight : Float) :
    ∃ v s, Exit weight ⟨⟨branching, []⟩, none⟩ ⟨[], .zero⟩ (.more s) ∧
      s.stack = [⟨⟨branching, []⟩, some ⟨v, true⟩⟩, ⟨⟨branching, []⟩, some ⟨v, false⟩⟩] := by
  obtain ⟨v, hv⟩ := Branching.exists_pick weight (by decide : branching ≠ []) (by decide)
  have hp : Branch.propagate ⟨branching, []⟩ = some ⟨branching, []⟩ :=
    Branch.propagate_of_not_unit not_unit_branching
  exact ⟨v, _, .split rfl hp (by decide) hv, rfl⟩

theorem frames_of_reachable_branching :
    ∃ v s, Reachable 2.0 branching s ∧
      s.stack.map Frame.decision? = [some ⟨v, true⟩, some ⟨v, false⟩] ∧
      ∀ f ∈ s.stack, f.branch.formula = reduce f.branch.trail branching ∧
        ∃ l, f.decision? = some l ∧ Occurs l.var branching := by
  have hF : [] ∉ branching := by decide
  obtain ⟨v, s, he, hs⟩ := exists_split_branching 2.0
  have hr := (Reachable.start (F := branching)).next he
  refine ⟨v, s, hr, by rw [hs]; rfl, fun f hf => ?_⟩
  obtain ⟨-, -, hred, -, -, hd⟩ := (frames_of_reachable hF hr).1 f hf
  refine ⟨hred, ?_⟩
  rcases hd with rfl | ⟨l, hl, ho, -⟩
  · simp [hs] at hf
  · rw [hred] at ho
    exact ⟨l, hl, (occurs_of_reduce ho).1⟩

end Search
end DpllSat
