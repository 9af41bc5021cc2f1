import DpllSat.Proofs.Search.Coverage
import DpllSat.Proofs.Search.Ending
import DpllSat.Proofs.Search.Frames

/-! What the verdict of a search says of the formula. -/
namespace DpllSat
namespace Search

variable {weight : Float} {F : Formula} {late : Prop} {stats : Stats}

theorem Ends.of_timedOut (h : Ends weight F late ⟨.timedOut, stats⟩) : late := by
  cases h with
  | timedOut hl _ => exact hl

theorem Ends.not_satisfiable (h : Ends weight F late ⟨.exhausted, stats⟩) :
    ¬ Satisfiable F := by
  rintro ⟨a, ha⟩
  cases h with
  | exhausted hr =>
    obtain ⟨f, hf, -⟩ := admits_of_reachable ha hr
    cases hf

/-- A trail that is found has come from `F` and has used all of it up. -/
theorem Ends.residual (hF : [] ∉ F) {T : List Lit} (h : Ends weight F late ⟨.model T, stats⟩) :
    Branch.Residual F ⟨[], T⟩ := by
  cases h with
  | found hr he =>
    cases he with
    | @solved b c hb hc hn =>
      have hs := (sound_of_reachable hF hr _ List.mem_cons_self).settled hb hc
      rcases c with ⟨G, T⟩
      cases hn
      exact hs

theorem Ends.satisfiable (hF : [] ∉ F) {T : List Lit}
    (h : Ends weight F late ⟨.model T, stats⟩) : Satisfiable F := by
  have hT := h.residual hF
  exact satisfiable_of_lits hT.nodup_var (hT.mem_trail rfl)

end Search
end DpllSat
