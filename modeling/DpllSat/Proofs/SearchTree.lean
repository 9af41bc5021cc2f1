import DpllSat.Proofs.SearchBound
import DpllSat.Proofs.Verdict

/-! The tree of a search. Every frame that is taken up is a node of it: a branching, a conflict, or
the leaf where a model is found. So the counters are tied to each other, and to the decisions on
the path to the model. -/
namespace DpllSat

theorem Branch.trail_prefix_propagate {b c : Branch} (hc : b.propagate = some c) :
    b.trail <+: c.trail := by
  obtain ⟨G, -, rfl⟩ := Option.map_eq_some_iff.1 hc
  exact List.prefix_append _ _

namespace Search

/-- The decisions `ds` lead from the frame `f` down to the frame `g`, in the tree of all frames
that a search from `f` could take up. -/
inductive Path (weight : Float) : Frame → List Lit → Frame → Prop
  | here (f : Frame) : Path weight f [] f
  | down {f g : Frame} {b c : Branch} {v : Var} {p : Bool} {ds : List Lit} :
    f.enter = some b → b.propagate = some c → c.formula ≠ [] →
    Branching.pick weight c.formula = some v → Path weight ⟨c, some ⟨v, p⟩⟩ ds g →
    Path weight f (⟨v, p⟩ :: ds) g

def Frame.Finds (f : Frame) (T : List Lit) : Prop :=
  ∃ b c, f.enter = some b ∧ b.propagate = some c ∧ c.formula = [] ∧ c.trail = T

theorem Frame.trail_of_enter {c b : Branch} {l : Lit} (he : (Frame.mk c (some l)).enter = some b) :
    b.trail = c.trail ++ [l] := by
  obtain ⟨G, -, rfl⟩ := Option.map_eq_some_iff.1 he
  rfl

namespace Path

variable {weight : Float} {F : Formula} {f g h : Frame} {ds es : List Lit} {T U : List Lit}

theorem trans (hd : Path weight f ds g) (he : Path weight g es h) :
    Path weight f (ds ++ es) h := by
  induction hd with
  | here f => exact he
  | down hb hc hn hv _ ih => exact .down hb hc hn hv (ih he)

theorem sound (hd : Path weight f ds g) (hf : f.Sound F) : g.Sound F := by
  induction hd with
  | here f => exact hf
  | down hb hc _ hv _ ih => exact ih (hf.split hb hc (Branching.occurs_of_pick hv))

theorem trail_prefix (hd : Path weight f ds g) (hT : g.Finds T) :
    ∃ b, f.enter = some b ∧ b.trail <+: T := by
  induction hd with
  | here f =>
    obtain ⟨b, c, hb, hc, -, rfl⟩ := hT
    exact ⟨b, hb, Branch.trail_prefix_propagate hc⟩
  | @down f g b c v p ds hb hc _ _ _ ih =>
    obtain ⟨b', hb', hT'⟩ := ih hT
    rw [Frame.trail_of_enter hb'] at hT'
    have hcT : c.trail <+: T := (List.prefix_append _ _).trans hT'
    exact ⟨b, hb, (Branch.trail_prefix_propagate hc).trans hcT⟩

theorem decision_mem {c : Branch} {l : Lit} (hd : Path weight ⟨c, some l⟩ ds g)
    (hT : g.Finds T) : l ∈ T := by
  obtain ⟨b, hb, hbT⟩ := hd.trail_prefix hT
  apply hbT.subset
  rw [Frame.trail_of_enter hb]
  exact List.mem_append_right _ List.mem_cons_self

theorem unique (hd : Path weight f ds g) (hT : g.Finds T) (he : Path weight f es h)
    (hU : h.Finds U) (hTU : ∀ l ∈ T, l.neg ∉ U) : ds = es := by
  induction hd generalizing es with
  | here f =>
    obtain ⟨b, c, hb, hc, hn, -⟩ := hT
    cases he with
    | here => rfl
    | down hb' hc' hn' _ _ =>
      cases hb.symm.trans hb'
      cases hc.symm.trans hc'
      exact absurd hn hn'
  | @down f g b c v p ds hb hc hn hv hd ih =>
    cases he with
    | here =>
      obtain ⟨b', c', hb', hc', hn', -⟩ := hU
      cases hb.symm.trans hb'
      cases hc.symm.trans hc'
      exact absurd hn' hn
    | @down _ _ _ _ w q _ hb' hc' _ hw he =>
      cases hb.symm.trans hb'
      cases hc.symm.trans hc'
      cases hv.symm.trans hw
      have hvT := hd.decision_mem hT
      have hvU := he.decision_mem hU
      -- paths that part here give the variable both signs
      by_cases hpq : p = q
      · subst hpq
        rw [ih hT he]
      · have hneg : (⟨v, q⟩ : Lit) = Lit.neg ⟨v, p⟩ := by
          cases p <;> cases q <;> simp_all [Lit.neg]
        exact absurd (hneg ▸ hvU) (hTU _ hvT)

end Path

theorem Frame.Sound.residual_of_finds {F : Formula} {f : Frame} {T : List Lit} (hf : f.Sound F)
    (hT : f.Finds T) : Branch.Residual F ⟨[], T⟩ := by
  obtain ⟨b, ⟨_, _⟩, hb, hc, rfl, rfl⟩ := hT
  exact hf.settled hb hc

/-- By how much twice the conflicts of a frame exceed its decisions once all of its tree has been
refuted. -/
def Frame.due (f : Frame) : Nat := 2 - f.decision?.toList.length

theorem Frame.due_add (f : Frame) : f.due + f.decision?.toList.length = 2 := by
  unfold due
  cases f.decision? <;> rfl

def State.due (s : State) : Nat := (s.stack.map Frame.due).sum

/-- Decisions lead from the root to each frame of the stack, with as many variables made true as
there are frames below it. All but the lowest frame come with a decision. -/
def Nested (weight : Float) (root : Frame) : List Frame → Prop
  | [] => True
  | f :: rest => (∃ ds, Path weight root ds f ∧ ds.countP Lit.positive = rest.length) ∧
    (∀ g ∈ rest, g.decision?.isSome) ∧ Nested weight root rest

structure Accounted (weight : Float) (F : Formula) (s : State) : Prop where
  balance : s.stats.decisions + 2 = 2 * s.stats.conflicts + s.due
  nested : Nested weight ⟨⟨F, []⟩, none⟩ s.stack
  height : s.stack.length ≤ max s.stats.maxDepth 1

variable {weight : Float} {F : Formula} {f : Frame} {s t : State}

theorem due_of_decided {stack : List Frame} (h : ∀ g ∈ stack, g.decision?.isSome) :
    (stack.map Frame.due).sum = stack.length := by
  induction stack with
  | nil => rfl
  | cons g stack ih =>
    obtain ⟨hg, hstack⟩ := List.forall_mem_cons.1 h
    obtain ⟨l, hl⟩ := Option.isSome_iff_exists.1 hg
    have hone : g.due = 1 := by simp [Frame.due, hl]
    rw [List.map_cons, List.sum_cons, ih hstack, hone, List.length_cons, Nat.add_comm]

theorem balance_of_exit (hs : s.stats.decisions + 2 = 2 * s.stats.conflicts + (f.due + s.due))
    (h : Exit weight f s (.more t)) : t.stats.decisions + 2 = 2 * t.stats.conflicts + t.due := by
  have hf := f.due_add
  have hd : t.stats.decisions = s.stats.decisions + f.decision?.toList.length :=
    decisions_of_exit h
  rcases h.conflict_or_split with ⟨hstack, hc, -⟩ | ⟨b, c, v, -, -, -, -, hstack, hc, -⟩
  · have hdue : t.due = s.due := by rw [State.due, hstack, State.due]
    omega
  · have hdue : t.due = 1 + (1 + s.due) := by
      rw [State.due, hstack]
      rfl
    omega

/-- A half that is made true hangs one true decision lower than the one that waits below it. -/
theorem nested_of_exit {root : Frame} (hs : Nested weight root (f :: s.stack))
    (h : Exit weight f s (.more t)) : Nested weight root t.stack := by
  obtain ⟨⟨ds, hds, hcount⟩, hrest, hnested⟩ := hs
  rcases h.conflict_or_split with ⟨hstack, -⟩ | ⟨b, c, v, he, hc, hn, hv, hstack, -⟩
  · rw [hstack]
    exact hnested
  · have half (p : Bool) : Path weight root (ds ++ [⟨v, p⟩]) ⟨c, some ⟨v, p⟩⟩ :=
      hds.trans (.down he hc hn hv (.here _))
    rw [hstack]
    refine ⟨⟨_, half true, ?_⟩, ?_, ⟨_, half false, ?_⟩, hrest, hnested⟩
    · simp [hcount]
    · simpa using hrest
    · simp [hcount]

theorem height_of_exit (hs : s.stack.length + 1 ≤ max s.stats.maxDepth 1)
    (h : Exit weight f s (.more t)) : t.stack.length ≤ max t.stats.maxDepth 1 := by
  rcases h.conflict_or_split with ⟨hstack, -, hd⟩ | ⟨b, c, v, -, -, -, -, -, -, hd⟩
  · rw [hstack, hd]
    omega
  · rw [hd]
    omega

theorem accounted_of_reachable (h : Reachable weight F s) : Accounted weight F s := by
  apply h.invariant (P := Accounted weight F)
  · exact ⟨rfl, ⟨⟨[], .here _, rfl⟩, by simp, trivial⟩, Nat.le_refl _⟩
  · intro f rest stats t hs ht
    exact ⟨balance_of_exit hs.balance ht, nested_of_exit hs.nested ht, height_of_exit hs.height ht⟩

namespace Ends

variable {late : Prop} {stats : Stats} {T : List Lit}

theorem balance_of_exhausted (h : Ends weight F late ⟨.exhausted, stats⟩) :
    stats.decisions + 2 = 2 * stats.conflicts := by
  cases h with
  | exhausted hr => exact (accounted_of_reachable hr).balance

/-- The frames that are left on the stack when a model is found are the halves that were put off
for the variables made true on the path. -/
theorem balance_of_model (h : Ends weight F late ⟨.model T, stats⟩) :
    ∃ ds g, Path weight ⟨⟨F, []⟩, none⟩ ds g ∧ g.Finds T ∧
      stats.decisions = 2 * stats.conflicts + ds.countP Lit.positive ∧
      ds.countP Lit.positive ≤ max stats.maxDepth 1 - 1 := by
  cases h with
  | @found f rest stats' _ _ hr he =>
    obtain ⟨hbalance, ⟨⟨ds, hds, hcount⟩, hrest, -⟩, hheight⟩ := accounted_of_reachable hr
    have hdue := f.due_add
    have hd := decisions_of_exit he
    cases he with
    | @solved b c hb hc hn =>
      refine ⟨ds, f, hds, ⟨b, c, hb, hc, hn, rfl⟩, ?_⟩
      simp only [State.due, List.map_cons, List.sum_cons, due_of_decided hrest, List.length_cons]
        at hbalance hheight
      simp only [takeUp_eq, State.propagated, Step.stats, hcount] at hd ⊢
      omega

end Ends

end Search

namespace Solver

open Search

/-- The decisions lead from the root of the search tree of `f` to a leaf where the trail that is
found has the given completion. -/
def LeadsTo (weight : Float) (f : Cnf) (ds : List Lit) (model : List Lit) : Prop :=
  ∃ g T, Search.Path weight ⟨⟨f.clauses, []⟩, none⟩ ds g ∧ g.Finds T ∧
    model = Valuation.complete (max f.numVars f.maxVar) T

theorem LeadsTo.unique {weight : Float} {f : Cnf} (hf : [] ∉ f.clauses) {ds es model : List Lit}
    (hd : LeadsTo weight f ds model) (he : LeadsTo weight f es model) : ds = es := by
  obtain ⟨g, T, hg, hT, hmodel⟩ := hd
  obtain ⟨h, U, hh, hU, rfl⟩ := he
  have hTres := (hg.sound (.root hf)).residual_of_finds hT
  have hUres := (hh.sound (.root hf)).residual_of_finds hU
  have hle {l : Lit} (hl : Occurs l.var f.clauses) : l.var.index ≤ max f.numVars f.maxVar :=
    Nat.le_trans (Cnf.index_le_maxVar hl) (Nat.le_max_right _ _)
  apply hg.unique hT hh hU
  intro l hlT hlU
  have hl := Valuation.mem_complete_of_mem hTres.nodup_var hlT (hle (hTres.occurs l hlT))
  have hneg := Valuation.mem_complete_of_mem hUres.nodup_var hlU (hle (hUres.occurs _ hlU))
  rw [← hmodel] at hl
  have hp := (Valuation.mem_complete_iff.1 hl).2
  have hq := (Valuation.mem_complete_iff.1 hneg).2
  rw [Lit.neg_var, ← hp] at hq
  simp [Lit.neg] at hq

end Solver

open Search Solver

/-- Without a time limit, the counters of a search on a formula without empty clauses fit its tree.
Every decision is one of the two halves of a branching, and of a tree that is refuted every leaf is
a conflict, so that there are two decisions for every conflict but one. Where a model is found,
just one path of decisions leads to it; for each variable that is made true on it, the other half
has not been tried, and so one decision goes without its conflict. -/
theorem stats_count_search_tree (weight : Float) (f : Cnf) (hf : [] ∉ f.clauses) :
    ((f.solve weight).result = .unsat →
      (f.solve weight).stats.decisions + 2 = 2 * (f.solve weight).stats.conflicts) ∧
    ∀ model, (f.solve weight).result = .sat model →
      ∃ path, (∀ ds, LeadsTo weight f ds model ↔ ds = path) ∧
        (f.solve weight).stats.decisions =
          2 * (f.solve weight).stats.conflicts + path.countP Lit.positive ∧
        path.countP Lit.positive ≤ max (f.solve weight).stats.maxDepth 1 - 1 := by
  obtain ⟨⟨verdict, stats⟩, hr, ⟨hn, -⟩ | ⟨-, ho⟩⟩ :=
    ends_of_canReturn_solveUnder (canReturn_solveScripted (fun _ => false) weight f)
  · exact absurd hn hf
  · have hsolve : f.solve weight = ⟨resultOf f verdict, stats⟩ := hr
    rw [hsolve]
    cases verdict with
    | exhausted => exact ⟨fun _ => ho.balance_of_exhausted, fun _ h => nomatch h⟩
    | timedOut =>
      obtain ⟨n, hn⟩ := of_canReturn_expired ho.of_timedOut
      cases hn
    | model T =>
      refine ⟨fun h => (nomatch h), fun model hmodel => ?_⟩
      obtain ⟨path, g, hpath, hT, hdecisions, hdepth⟩ := ho.balance_of_model
      cases hmodel
      have hleads : LeadsTo weight f path _ := ⟨g, T, hpath, hT, rfl⟩
      refine ⟨path, fun ds => ⟨fun hds => hds.unique hf hleads, ?_⟩, hdecisions, hdepth⟩
      rintro rfl
      exact hleads

def square : Formula := [[1, 2], [-1, 2], [1, -2], [-1, -2]].map (List.filterMap Lit.ofDimacs?)

theorem not_satisfiable_square : ¬ Satisfiable square := by
  rintro ⟨a, ha⟩
  simp only [Assignment.Satisfies, square, List.map_cons, List.map_nil, List.forall_mem_cons] at ha
  simp [Assignment.Holds, Lit.ofDimacs?, Var.of?, maxVariable] at ha
  grind

theorem result_square (weight : Float) : (Cnf.solve weight ⟨2, square⟩).result = .unsat := by
  rcases verdict_of_canReturn (canReturn_solveScripted (fun _ => false) weight ⟨2, square⟩) with
    ⟨hr, -⟩ | ⟨_, -, hs⟩ | ⟨-, hl⟩
  · exact hr
  · exact absurd hs not_satisfiable_square
  · obtain ⟨n, hn⟩ := of_canReturn_expired hl
    cases hn

theorem stats_count_search_tree_square :
    ([] ∉ square ∧ (Cnf.solve defaultWeight ⟨2, square⟩).result = .unsat ∧
      (Cnf.solve defaultWeight ⟨2, square⟩).stats.decisions + 2 =
        2 * (Cnf.solve defaultWeight ⟨2, square⟩).stats.conflicts) ∧
    [] ∉ branching ∧ ∃ model, (Cnf.solve defaultWeight ⟨4, branching⟩).result = .sat model ∧
      ∃ path, LeadsTo defaultWeight ⟨4, branching⟩ path model ∧
        (Cnf.solve defaultWeight ⟨4, branching⟩).stats.decisions =
          2 * (Cnf.solve defaultWeight ⟨4, branching⟩).stats.conflicts +
            path.countP Lit.positive := by
  have hs : [] ∉ square := by decide
  have hb : [] ∉ branching := by decide
  have hunsat := result_square defaultWeight
  obtain ⟨model, hsat⟩ := exists_model_of_satisfiable (f := ⟨4, branching⟩) defaultWeight
    ⟨fun _ => true, by decide⟩
  obtain ⟨path, hpath, hd, -⟩ :=
    (stats_count_search_tree defaultWeight ⟨4, branching⟩ hb).2 model hsat
  exact ⟨⟨hs, hunsat, (stats_count_search_tree defaultWeight ⟨2, square⟩ hs).1 hunsat⟩,
    hb, model, hsat, path, (hpath path).2 rfl, hd⟩

end DpllSat
