import DpllSat.Proofs.Search.Turns

/-! The search as a recursive procedure, and the stack of the search as the calls of it
that are still to be made. -/
namespace DpllSat

def Event.decision? : Event → Option (Lit × Nat)
  | decided l depth => some (l, depth)
  | _ => none

/-- What a call of the recursive procedure did: the trail it found, if it found one, the
literals it tried and how long the trail was then, how many literals were propagated, how
often it failed, and for each branching the number of true edges that lead to it. -/
structure Visit where
  trail? : Option (List Lit)
  decisions : List (Lit × Nat)
  propagations : Nat
  conflicts : Nat
  branchings : List Nat

namespace Visit

def failed : Visit := ⟨none, [], 0, 1, []⟩

def solved (trail : List Lit) : Visit := ⟨some trail, [], 0, 0, []⟩

def after (decision? : Option Lit) (depth n : Nat) (r : Visit) : Visit :=
  { r with
    decisions := decision?.toList.map (·, depth) ++ r.decisions
    propagations := n + r.propagations }

def below (r : Visit) : Visit := { r with branchings := 0 :: r.branchings.map (· + 1) }

def andThen (r r' : Visit) : Visit :=
  ⟨r'.trail?, r.decisions ++ r'.decisions, r.propagations + r'.propagations,
    r.conflicts + r'.conflicts, r.branchings ++ r'.branchings⟩

theorem size_lt {b c d : Branch} {decision? : Option Lit} {v : Var} {p : Bool} {weight : Float}
    (hc : decision?.elim (some b) b.assume = some c) (hd : c.propagate = some d)
    (hv : Branching.pick weight d.formula = some v) :
    (Search.Frame.mk d (some ⟨v, p⟩)).size < (Search.Frame.mk b decision?).size := by
  obtain ⟨G, hG, rfl⟩ := Option.map_eq_some_iff.1 hd
  have h1 := Search.literalCountWithout_lt (Branching.mem_of_pick hv)
  have h2 := Search.literalCount_propagate hG
  have h3 : Search.literalCount c.formula ≤ (Search.Frame.mk b decision?).size := by
    cases decision? with
    | none =>
      cases hc
      exact Nat.le_refl _
    | some l =>
      obtain ⟨H, hH, rfl⟩ := Option.map_eq_some_iff.1 hc
      exact Search.literalCount_assume hH
  exact Nat.lt_of_lt_of_le h1 (Nat.le_trans h2 h3)

end Visit

/-- Assumes the decision, if there is one, and propagates. A contradiction fails, as does a
formula with nothing left but empty clauses; the empty formula succeeds with its trail. On
any other formula a variable is picked and made true, and only if that fails made false,
both times from the propagated branch. -/
def visit (weight : Float) (b : Branch) (decision? : Option Lit) : Visit :=
  match _hc : decision?.elim (some b) b.assume with
  | none => Visit.failed.after decision? b.trail.length 0
  | some c =>
    match _hd : c.propagate with
    | none => Visit.failed.after decision? b.trail.length 0
    | some d =>
      let n := d.trail.length - c.trail.length
      if d.formula = [] then (Visit.solved d.trail).after decision? b.trail.length n
      else match _hv : Branching.pick weight d.formula with
        | none => Visit.failed.after decision? b.trail.length n
        | some v =>
          let yes := (visit weight d (some ⟨v, true⟩)).below
          if yes.trail?.isSome then yes.after decision? b.trail.length n
          else
            (yes.andThen (visit weight d (some ⟨v, false⟩))).after decision? b.trail.length n
termination_by (Search.Frame.mk b decision?).size
decreasing_by all_goals exact Visit.size_lt _hc _hd _hv

namespace Search

theorem enter_eq (b : Branch) (decision? : Option Lit) :
    (Frame.mk b decision?).enter = decision?.elim (some b) b.assume := by
  cases decision? <;> rfl

theorem decisions_explore (weight : Float) (b : Branch) (s : State) :
    (explore weight b s).events.filterMap Event.decision? = [] := by
  unfold explore
  split
  · rfl
  · split
    · rfl
    · split <;> rfl

theorem decisions_turn (weight : Float) (f : Frame) (s : State) :
    (turn weight f s).events.filterMap Event.decision? =
      f.decision?.toList.map (·, f.branch.trail.length) := by
  unfold turn
  cases f.decision? with
  | none => exact decisions_explore weight f.branch _
  | some l =>
    cases hb : f.branch.assume l with
    | none => simp [hb, Event.decision?]
    | some b => simp [hb, Event.decision?, decisions_explore]

def tried (us : List Turn) : List (Lit × Nat) :=
  us.flatMap fun u => u.events.filterMap Event.decision?

end Search

/-- The counters after a visit above a stack of the given height. A branching pushes two
frames onto what is pending: the stack, and a false branch for each true edge. -/
def Stats.visited (stats : Stats) (height : Nat) (r : Visit) : Stats :=
  ⟨stats.decisions + r.decisions.length, stats.propagations + r.propagations,
    stats.conflicts + r.conflicts,
    r.branchings.foldl (fun m n => max m (height + n + 2)) stats.maxDepth⟩

namespace Stats

def branched (stats : Stats) (height decisions propagations : Nat) : Stats :=
  ⟨stats.decisions + decisions, stats.propagations + propagations, stats.conflicts,
    max stats.maxDepth (height + 2)⟩

/-- Below the true edge the stack is one frame higher. -/
theorem visited_branched (stats : Stats) (height depth n : Nat) (decision? : Option Lit)
    (r : Visit) :
    (stats.branched height decision?.toList.length n).visited (height + 1) r =
      stats.visited height (r.below.after decision? depth n) := by
  have hf : (fun m k => max m (height + 1 + k + 2)) =
      fun m k => max m (height + (k + 1) + 2) := by
    funext m k
    rw [Nat.add_right_comm height 1 k, Nat.add_assoc height k 1]
  simp only [visited, branched, Visit.below, Visit.after, List.foldl_cons, List.foldl_map,
    List.length_append, List.length_map, hf, Nat.add_zero]
  simp only [Nat.add_assoc]

theorem visited_andThen (stats : Stats) (height : Nat) (r r' : Visit) :
    (stats.visited height r).visited height r' = stats.visited height (r.andThen r') := by
  simp [visited, Visit.andThen, Nat.add_assoc]

end Stats

theorem Visit.after_andThen (r r' : Visit) (decision? : Option Lit) (depth n : Nat) :
    (r.andThen r').after decision? depth n = (r.after decision? depth n).andThen r' := by
  simp [andThen, after, Nat.add_assoc]

namespace Search

def stepOf (rest : List Frame) (stats : Stats) (r : Visit) : Step :=
  match r.trail? with
  | some trail => .found trail (stats.visited rest.length r)
  | none => .more ⟨rest, stats.visited rest.length r⟩

theorem stepOf_of_none {rest : List Frame} {stats : Stats} {r : Visit} (hr : r.trail? = none) :
    stepOf rest stats r = .more ⟨rest, stats.visited rest.length r⟩ := by
  rw [stepOf, hr]

theorem stepOf_of_some {rest : List Frame} {stats : Stats} {r : Visit} {trail : List Lit}
    (hr : r.trail? = some trail) :
    stepOf rest stats r = .found trail (stats.visited rest.length r) := by
  rw [stepOf, hr]

theorem stepOf_visited (rest : List Frame) (stats : Stats) (r r' : Visit) :
    stepOf rest (stats.visited rest.length r) r' = stepOf rest stats (r.andThen r') := by
  rw [stepOf, stepOf, Stats.visited_andThen]
  rfl

theorem tried_cons (weight : Float) (f : Frame) (s : State) (us : List Turn) :
    tried (turn weight f s :: us) =
      f.decision?.toList.map (·, f.branch.trail.length) ++ tried us := by
  simp [tried, decisions_turn]

@[simp] theorem tried_nil : tried [] = [] := rfl

theorem tried_append (us vs : List Turn) : tried (us ++ vs) = tried us ++ tried vs := by
  simp [tried]

theorem turns_of_failed {weight : Float} {f : Frame} {rest : List Frame} {stats : Stats} {n : Nat}
    (h : Exit weight f ⟨rest, stats⟩
      (.more ((State.takeUp ⟨rest, stats⟩ f).propagated n).conflict)) :
    ∃ us, Turns weight ⟨f :: rest, stats⟩ us
        (stepOf rest stats (Visit.failed.after f.decision? f.branch.trail.length n)) ∧
      tried us = (Visit.failed.after f.decision? f.branch.trail.length n).decisions := by
  refine ⟨[_], .cons (t := ⟨rest, _⟩) ?_ (.nil _), ?_⟩
  · rw [h.turn_step, takeUp_eq]
    simp [State.propagated, State.conflict, Stats.visited, Visit.after, Visit.failed]
  · rw [tried_cons]
    simp [Visit.after, Visit.failed]

theorem turn_of_split {weight : Float} {b c d : Branch} {decision? : Option Lit} {v : Var}
    (hc : decision?.elim (some b) b.assume = some c) (hd : c.propagate = some d)
    (hn : d.formula ≠ []) (hv : Branching.pick weight d.formula = some v) (rest : List Frame)
    (stats : Stats) :
    (turn weight ⟨b, decision?⟩ ⟨rest, stats⟩).step =
      .more ⟨⟨d, some ⟨v, true⟩⟩ :: ⟨d, some ⟨v, false⟩⟩ :: rest,
        stats.branched rest.length decision?.toList.length (d.trail.length - c.trail.length)⟩ := by
  rw [(Exit.split ((enter_eq b _).trans hc) hd hn hv).turn_step, takeUp_eq]
  simp [State.split, State.propagated, Stats.branched]

/-- The search works off a frame as the recursive procedure does a call, whatever is on the
stack below it. -/
theorem visit_turns (weight : Float) (b : Branch) (decision? : Option Lit) (rest : List Frame)
    (stats : Stats) :
    ∃ us, Turns weight ⟨⟨b, decision?⟩ :: rest, stats⟩ us
        (stepOf rest stats (visit weight b decision?)) ∧
      tried us = (visit weight b decision?).decisions := by
  fun_induction visit weight b decision? generalizing rest stats with
  | case1 b decision? hc =>
    exact turns_of_failed (n := 0) (.refused (by rw [enter_eq, hc]))
  | case2 b decision? c hc hd =>
    exact turns_of_failed (n := 0) (.refuted (by rw [enter_eq, hc]) hd)
  | case3 b decision? c hc d hd n hn =>
    have he : Exit weight ⟨b, decision?⟩ ⟨rest, stats⟩ _ := .solved ((enter_eq b _).trans hc) hd hn
    have ht : (turn weight ⟨b, decision?⟩ ⟨rest, stats⟩).step =
        stepOf rest stats ((Visit.solved d.trail).after decision? b.trail.length n) := by
      rw [he.turn_step, takeUp_eq]
      simp [stepOf, State.propagated, Stats.visited, Visit.after, Visit.solved, n]
    refine ⟨[_], .found ht, ?_⟩
    rw [tried_cons]
    simp [Visit.after, Visit.solved]
  | case4 b decision? c hc d hd n hn hv =>
    exact turns_of_failed (.stuck ((enter_eq b _).trans hc) hd hn hv)
  | case5 b decision? c hc d hd n hn v hv yes hy ih =>
    -- the true edge finds a model, and the false branch stays on the stack
    obtain ⟨us, hus, hut⟩ := ih (⟨d, some ⟨v, false⟩⟩ :: rest)
      (stats.branched rest.length decision?.toList.length n)
    obtain ⟨trail, ht⟩ := Option.isSome_iff_exists.1 hy
    have hr : (visit weight d (some ⟨v, true⟩)).trail? = some trail := ht
    rw [stepOf_of_some hr, List.length_cons,
      Stats.visited_branched stats rest.length b.trail.length n decision?] at hus
    refine ⟨_ :: us, .cons (turn_of_split hc hd hn hv rest stats) ?_, ?_⟩
    · rw [stepOf_of_some (r := yes.after decision? b.trail.length n) ht]
      exact hus
    · rw [tried_cons, hut]
      rfl
  | case6 b decision? c hc d hd n hn v hv yes hy ih1 ih2 =>
    -- the true edge fails, and the false branch is what is taken up next
    obtain ⟨us, hus, hut⟩ := ih1 (⟨d, some ⟨v, false⟩⟩ :: rest)
      (stats.branched rest.length decision?.toList.length n)
    have hr : (visit weight d (some ⟨v, true⟩)).trail? = none :=
      Option.not_isSome_iff_eq_none.1 hy
    rw [stepOf_of_none hr, List.length_cons,
      Stats.visited_branched stats rest.length b.trail.length n decision?] at hus
    obtain ⟨vs, hvs, hvt⟩ := ih2 rest
      (stats.visited rest.length (yes.after decision? b.trail.length n))
    refine ⟨_ :: (us ++ vs), .cons (turn_of_split hc hd hn hv rest stats) ?_, ?_⟩
    · rw [Visit.after_andThen, ← stepOf_visited]
      exact hus.append hvs
    · rw [tried_cons, tried_append, hut, hvt]
      rfl

end Search
end DpllSat
