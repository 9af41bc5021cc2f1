import DpllSat.Proofs.Benchmark.Clock
import DpllSat.Proofs.Benchmark.Inputs

/-! What the search for formula files comes to, in whatever order the entries of directories are
listed. -/
namespace DpllSat
namespace Benchmark

/-- A search ends with all that there is to find, if each directory that it goes through can be
listed to its end, and else with the fault of one that cannot. -/
def Searched (fs : FileSystem) (dir : Path) : Except FileError (List (List Name)) → Prop
  | .ok found => found.Nodup ∧ (∀ ns, ns ∈ found ↔ Found fs dir ns) ∧
      ∀ sub, Entered fs dir sub → (fs.list sub).fault? = none
  | .error e => ∃ sub, Entered fs dir sub ∧ (fs.list sub).fault? = some e

def Gathered (fs : FileSystem) (dir : Path) (entries : List Name) :
    Except FileError (List (List Name)) → Prop
  | .ok found => found.Nodup ∧
      (∀ ns, ns ∈ found ↔ Found fs dir ns ∧ ∃ name ∈ entries, ns.head? = some name) ∧
      ∀ name ∈ entries, fs.isDirectory (dir.child name) = true →
        ∀ sub, Entered fs (dir.child name) sub → (fs.list sub).fault? = none
  | .error e => ∃ sub, Entered fs dir sub ∧ (fs.list sub).fault? = some e

variable {fs : FileSystem} {dir : Path} {name : Name} {entries : List Name}

theorem gathered_of_isDirectory {r : Except FileError (List (List Name))}
    (hmem : name ∈ (fs.list dir).names) (hdir : fs.isDirectory (dir.child name) = true)
    (h : Searched fs (dir.child name) r) :
    Gathered fs dir [name] (r.map fun found => found.map (name :: ·)) := by
  cases r with
  | error e =>
    obtain ⟨sub, hsub, he⟩ := h
    exact ⟨sub, .deeper hmem hdir hsub, he⟩
  | ok found =>
    obtain ⟨hnodup, hfound, hlists⟩ := h
    refine ⟨hnodup.map fun _ _ => List.tail_eq_of_cons_eq, fun ns => ?_, ?_⟩
    · rw [List.mem_map]
      constructor
      · rintro ⟨ms, hms, rfl⟩
        exact ⟨.deeper hmem hdir ((hfound ms).1 hms), name, by simp, rfl⟩
      · rintro ⟨hns, n, hn, hhead⟩
        obtain rfl := List.mem_singleton.1 hn
        obtain ⟨ms, rfl⟩ := List.head?_eq_some_iff.1 hhead
        obtain ⟨-, ⟨-, hms⟩ | ⟨hfile, -⟩⟩ := found_cons_iff.1 hns
        · exact ⟨ms, (hfound ms).2 hms, rfl⟩
        · rw [hdir] at hfile
          cases hfile
    · intro n hn _ sub hsub
      obtain rfl := List.mem_singleton.1 hn
      exact hlists sub hsub

theorem gathered_of_not_isDirectory (hmem : name ∈ (fs.list dir).names)
    (hdir : fs.isDirectory (dir.child name) = false) :
    Gathered fs dir [name] (.ok (if isFormulaName name.bytes then [[name]] else [])) := by
  refine ⟨by split <;> simp, fun ns => ?_, fun n hn hdir' => ?_⟩
  · constructor
    · intro hns
      split at hns
      · rename_i hname
        obtain rfl := List.mem_singleton.1 hns
        exact ⟨.file hmem hdir ((isFormulaName_iff _).1 hname), name, by simp, rfl⟩
      · cases hns
    · rintro ⟨hns, n, hn, hhead⟩
      obtain rfl := List.mem_singleton.1 hn
      obtain ⟨ms, rfl⟩ := List.head?_eq_some_iff.1 hhead
      obtain ⟨-, ⟨hdir', -⟩ | ⟨-, rfl, hext⟩⟩ := found_cons_iff.1 hns
      · rw [hdir] at hdir'
        cases hdir'
      · rw [if_pos ((isFormulaName_iff _).2 hext)]
        simp
  · obtain rfl := List.mem_singleton.1 hn
    rw [hdir] at hdir'
    cases hdir'

theorem Gathered.cons {first : List (List Name)} {r : Except FileError (List (List Name))}
    (hname : name ∉ entries) (hfirst : Gathered fs dir [name] (.ok first))
    (h : Gathered fs dir entries r) : Gathered fs dir (name :: entries) (r.map (first ++ ·)) := by
  cases r with
  | error e => exact h
  | ok rest =>
    obtain ⟨hnodup, hfound, hlists⟩ := hfirst
    obtain ⟨hnodup', hfound', hlists'⟩ := h
    refine ⟨hnodup.append hnodup' fun ns h1 h2 => ?_, fun ns => ?_, ?_⟩
    · obtain ⟨-, n, hn, hhead⟩ := (hfound ns).1 h1
      obtain ⟨-, n', hn', hhead'⟩ := (hfound' ns).1 h2
      rw [hhead] at hhead'
      cases hhead'
      exact hname (List.mem_singleton.1 hn ▸ hn')
    · rw [List.mem_append, hfound, hfound', ← and_or_left]
      simp
    · intro n hn
      rcases List.mem_cons.1 hn with rfl | hn
      · exact hlists n (by simp)
      · exact hlists' n hn

variable {clock : Nat → Nat} {arrange : Path → List Name → List Name}

theorem visit_run (o : ClockedDesk clock arrange)
    (hsub : o.desk.files.isDirectory (dir.child name) = true →
      ∃ r, (collect (dir.child name) : Clocked clock arrange _).run o = pure (r, o) ∧
        Searched o.desk.files (dir.child name) r)
    (hmem : name ∈ (o.desk.files.list dir).names) :
    ∃ r, (visit dir name : Clocked clock arrange _).run o = pure (r, o) ∧
      Gathered o.desk.files dir [name] r := by
  rw [visit, StateT.run_bind, isDirectory_run, pure_bind]
  by_cases hdir : o.desk.files.isDirectory (dir.child name) = true
  · obtain ⟨r, hr, hs⟩ := hsub hdir
    refine ⟨_, ?_, gathered_of_isDirectory hmem hdir hs⟩
    simp only [dif_pos (And.intro hdir (FileSystem.length_le_of_isDirectory hdir))]
    rw [StateT.run_bind, hr]
    rfl
  · refine ⟨_, ?_, gathered_of_not_isDirectory hmem (by simpa using hdir)⟩
    simp only [hdir, Bool.false_eq_true, false_and, dif_neg, not_false_eq_true]
    rfl

theorem gather_run (o : ClockedDesk clock arrange)
    (hsub : ∀ name, o.desk.files.isDirectory (dir.child name) = true →
      ∃ r, (collect (dir.child name) : Clocked clock arrange _).run o = pure (r, o) ∧
        Searched o.desk.files (dir.child name) r)
    (hmem : ∀ name ∈ entries, name ∈ (o.desk.files.list dir).names) (hnodup : entries.Nodup) :
    ∃ r, (gather dir entries : Clocked clock arrange _).run o = pure (r, o) ∧
      Gathered o.desk.files dir entries r := by
  induction entries with
  | nil =>
    refine ⟨.ok [], ?_, .nil, by simp, by simp⟩
    rw [gather]
    rfl
  | cons name entries ih =>
    rw [List.forall_mem_cons] at hmem
    rw [List.nodup_cons] at hnodup
    obtain ⟨first, hrun, hfirst⟩ := visit_run o (hsub name) hmem.1
    obtain ⟨r, hr, hrest⟩ := ih hmem.2 hnodup.2
    rw [gather, StateT.run_bind, hrun, pure_bind]
    cases first with
    | error e => exact ⟨.error e, rfl, hfirst⟩
    | ok first =>
      refine ⟨_, ?_, hfirst.cons hnodup.1 hrest⟩
      simp only
      rw [StateT.run_bind, hr]
      rfl

/-- The search looks at the files and changes nothing. -/
theorem collect_run (harrange : ∀ dir names, (arrange dir names).Perm names)
    (o : ClockedDesk clock arrange) (dir : Path) :
    ∃ r, (collect dir : Clocked clock arrange _).run o = pure (r, o) ∧
      Searched o.desk.files dir r := by
  -- a directory further down leaves less room for a path
  induction hroom : Path.maxLength + 1 - dir.length using Nat.strongRecOn generalizing dir with
  | ind room ih =>
    have hsub (name : Name) (hdir : o.desk.files.isDirectory (dir.child name) = true) :
        ∃ r, (collect (dir.child name) : Clocked clock arrange _).run o = pure (r, o) ∧
          Searched o.desk.files (dir.child name) r := by
      have hlt := dir.length_lt_child name
      have hfits := FileSystem.length_le_of_isDirectory hdir
      exact ih _ (by omega) (dir.child name) rfl
    have hperm := harrange dir (o.desk.files.list dir).names
    obtain ⟨r, hr, hgathered⟩ := gather_run o hsub (fun name => hperm.mem_iff.1)
      (hperm.nodup_iff.2 (FileSystem.nodup_list _ dir))
    rw [collect, StateT.run_bind, list_run, pure_bind]
    simp only
    rw [StateT.run_bind, hr, pure_bind]
    cases r with
    | error e => exact ⟨.error e, rfl, hgathered⟩
    | ok found =>
      obtain ⟨hfnodup, hfound, hlists⟩ := hgathered
      cases hfault : (o.desk.files.list dir).fault? with
      | some e => exact ⟨.error e, rfl, dir, .start, hfault⟩
      | none =>
        refine ⟨.ok found, rfl, hfnodup, fun ns => (hfound ns).trans ⟨And.left, fun hns => ?_⟩, ?_⟩
        · cases ns with
          | nil => exact absurd hns not_found_nil
          | cons name ns =>
            exact ⟨hns, name, hperm.mem_iff.2 (found_cons_iff.1 hns).1, rfl⟩
        · intro sub hsub
          cases hsub with
          | start => exact hfault
          | deeper hmem hdir hsub => exact hlists _ (hperm.mem_iff.2 hmem) hdir sub hsub

end Benchmark
end DpllSat
