import DpllSat.Benchmark.Inputs
import DpllSat.Proofs.Files.Create
import DpllSat.Proofs.Files.Paths
import Mathlib.Data.List.Lex

/-! What a search for formula files finds. It is told by the listings of the directories that are
entered; where nothing is in the way, by the tree alone. -/
namespace DpllSat

/-- The part of a file name after its last dot. A name without a dot has no extension, and
neither has one whose only dot comes first. -/
def extension? (name : List UInt8) : Option (List UInt8) :=
  match name.reverse.dropWhile (· ≠ 46) with
  | [] | [_] => none
  | _ => some (name.reverse.takeWhile (· ≠ 46)).reverse

example : (["uf20.cnf", "a.b.cnf", "..cnf", ".cnf", "cnf", "a.cnf."].map
    fun name => extension? (Text.encode name.toList)) =
      [some [99, 110, 102], some [99, 110, 102], some [99, 110, 102], none, none, some []] := by
  decide

instance byteOrder : LinearOrder UInt8 where
  le_refl := UInt8.le_refl
  le_trans _ _ _ := UInt8.le_trans
  lt_iff_le_not_ge a b := by
    simp only [UInt8.lt_iff_toNat_lt, UInt8.le_iff_toNat_le]
    omega
  le_antisymm _ _ := UInt8.le_antisymm
  le_total := UInt8.le_total
  toDecidableLE := inferInstance
  toDecidableLT := inferInstance
  toDecidableEq := inferInstance

theorem Name.bytes_injective : Function.Injective Name.bytes := by
  rintro ⟨_, _⟩ ⟨_, _⟩ h
  cases h
  rfl

instance nameOrder : LinearOrder Name := LinearOrder.lift' Name.bytes Name.bytes_injective

def Spot.isOpen : Spot → Bool
  | .dir access fault? => access.read && access.search && fault?.isNone
  | .link _ => false
  | _ => true

namespace Benchmark

theorem isFormulaName_iff (name : List UInt8) :
    isFormulaName name = true ↔ extension? name = some [99, 110, 102] := by
  have hsplit := List.takeWhile_append_dropWhile (p := (· ≠ 46)) (l := name.reverse)
  have hsuffix : Text.encode ".cnf".toList = [46, 99, 110, 102] := by decide
  unfold isFormulaName extension?
  rw [hsuffix]
  constructor
  · intro h
    simp only [Bool.and_eq_true, decide_eq_true_eq, List.isSuffixOf_iff_suffix] at h
    obtain ⟨hlen, stem, hstem⟩ := h
    have hrev : name.reverse = 102 :: 110 :: 99 :: 46 :: stem.reverse := by
      rw [← hstem]
      simp
    obtain ⟨c, cs, hcs⟩ : ∃ c cs, stem.reverse = c :: cs := by
      refine List.exists_cons_of_ne_nil fun hnil => ?_
      rw [← hstem] at hlen
      simp_all
    rw [hrev, hcs]
    rfl
  · intro h
    have hdot := List.head?_dropWhile_not (· ≠ (46 : UInt8)) name.reverse
    rcases hd : name.reverse.dropWhile (· ≠ 46) with _ | ⟨c, _ | ⟨d, cs⟩⟩ <;>
      rw [hd] at h hdot
    · cases h
    · cases h
    · have hc : c = 46 := by simpa using hdot
      have ht : (name.reverse.takeWhile (· ≠ 46)).reverse = [99, 110, 102] := Option.some.inj h
      have hname : name = (cs.reverse ++ [d]) ++ [46, 99, 110, 102] := by
        rw [← List.reverse_reverse name, ← hsplit, List.reverse_append, ht, hd, hc]
        simp
      have hlen : 4 < name.length := by
        rw [hname]
        simp
      exact Bool.and_eq_true_iff.2
        ⟨decide_eq_true hlen, List.isSuffixOf_iff_suffix.2 ⟨_, hname.symm⟩⟩

theorem pathLe_iff {as bs : List Name} : pathLe as bs = true ↔ as ≤ bs := by
  rw [← not_lt]
  fun_induction pathLe as bs with
  | case1 bs => simp
  | case2 a as => simp
  | case3 a as b bs h => simp [List.cons_lt_cons_iff, h.not_gt, h.ne']
  | case4 a as b bs h h' => simp [List.cons_lt_cons_iff, h']
  | case5 a as b bs h h' ih =>
    have hab : a = b := le_antisymm (not_lt.1 h') (not_lt.1 h)
    simp [hab, ih]

theorem pairwise_mergeSort_pathLe {found : List (List Name)} (h : found.Nodup) :
    (found.mergeSort pathLe).Pairwise (· < ·) := by
  have hle : (found.mergeSort pathLe).Pairwise (· ≤ ·) := by
    refine (List.pairwise_mergeSort (fun as bs cs h1 h2 => ?_) (fun as bs => ?_) found).imp
      pathLe_iff.1
    · exact pathLe_iff.2 ((pathLe_iff.1 h1).trans (pathLe_iff.1 h2))
    · simpa only [Bool.or_eq_true, pathLe_iff] using le_total as bs
  refine hle.imp₂ (fun _ _ hle hne => lt_of_le_of_ne hle hne) ?_
  exact (List.mergeSort_perm _ _).nodup_iff.2 h

/-- The directories that a search goes through. -/
inductive Entered (fs : FileSystem) : Path → Path → Prop
  | start {dir : Path} : Entered fs dir dir
  | deeper {dir sub : Path} {name : Name} : name ∈ (fs.list dir).names →
      fs.isDirectory (dir.child name) = true → Entered fs (dir.child name) sub → Entered fs dir sub

/-- The names under which a search from a directory comes upon something with the extension `cnf`
that is not seen to be a directory. -/
inductive Found (fs : FileSystem) : Path → List Name → Prop
  | file {dir : Path} {name : Name} : name ∈ (fs.list dir).names →
      fs.isDirectory (dir.child name) = false → extension? name.bytes = some [99, 110, 102] →
      Found fs dir [name]
  | deeper {dir : Path} {name : Name} {names : List Name} : name ∈ (fs.list dir).names →
      fs.isDirectory (dir.child name) = true → Found fs (dir.child name) names →
      Found fs dir (name :: names)

/-- A directory at a place, with nothing below it but files, sockets and directories that are open,
free of faults and reached by paths that are not too long. -/
structure Plain (fs : FileSystem) (dir : Path) (d : Place) : Prop where
  resolve : fs.resolve false dir = .ok d
  isDir : ∃ access fault?, fs.look d = some (.dir access fault?)
  dir : ∀ {ns access fault?}, fs.look (d ++ ns) = some (.dir access fault?) →
    access.read = true ∧ access.search = true ∧ fault? = none ∧
      (dir.under ns).length ≤ Path.maxLength
  link : ∀ {ns goal}, fs.look (d ++ ns) ≠ some (.link goal)

variable {fs : FileSystem} {dir sub : Path} {d : Place} {name : Name} {ns : List Name}

theorem fileId?_of_long (h : Path.maxLength < dir.length) : fs.fileId? dir = none := by
  rw [Option.eq_none_iff_forall_ne_some]
  intro id hid
  exact Nat.not_le.2 h (FileSystem.length_le_of_spotAt (FileSystem.fileId?_eq_some_iff.1 hid))

theorem not_found_nil : ¬ Found fs dir [] := nofun

theorem found_cons_iff : Found fs dir (name :: ns) ↔ name ∈ (fs.list dir).names ∧
    (fs.isDirectory (dir.child name) = true ∧ Found fs (dir.child name) ns ∨
      fs.isDirectory (dir.child name) = false ∧ ns = [] ∧
        extension? name.bytes = some [99, 110, 102]) := by
  constructor
  · intro h
    cases h with
    | file hmem hdir hext => exact ⟨hmem, Or.inr ⟨hdir, rfl, hext⟩⟩
    | deeper hmem hdir h => exact ⟨hmem, Or.inl ⟨hdir, h⟩⟩
  · rintro ⟨hmem, ⟨hdir, h⟩ | ⟨hdir, rfl, hext⟩⟩
    · exact .deeper hmem hdir h
    · exact .file hmem hdir hext

namespace Plain

theorem list (h : Plain fs dir d) : fs.list dir = ⟨fs.names d, none⟩ := by
  obtain ⟨access, fault?, hd⟩ := h.isDir
  rw [← List.append_nil d] at hd
  obtain ⟨hread, -, rfl, -⟩ := h.dir hd
  rw [List.append_nil] at hd
  exact FileSystem.list_of_resolve h.resolve hd hread

theorem passable (h : Plain fs dir d) : Passable fs.look d := by
  obtain ⟨access, fault?, hd⟩ := h.isDir
  rw [← List.append_nil d] at hd
  obtain ⟨-, hsearch, -⟩ := h.dir hd
  rw [List.append_nil] at hd
  exact ⟨access, fault?, hd, hsearch⟩

theorem child (h : Plain fs dir d) {access : Access} {fault? : Option FileError}
    (hn : fs.look (d ++ [name]) = some (.dir access fault?)) :
    Plain fs (dir.child name) (d ++ [name]) where
  resolve := FileSystem.resolve_child h.resolve h.passable hn (fun _ => Spot.noConfusion)
    (h.dir hn).2.2.2
  isDir := ⟨access, fault?, hn⟩
  dir hd := by
    rw [List.append_assoc] at hd
    exact h.dir hd
  link := by
    intro ns goal
    rw [List.append_assoc]
    exact h.link

theorem isDirectory_iff (h : Plain fs dir d) {spot : Spot}
    (hn : fs.look (d ++ [name]) = some spot) :
    fs.isDirectory (dir.child name) = true ↔ spot.isDir = true := by
  have hlink : ∀ goal, spot ≠ .link goal := by
    rintro goal rfl
    exact h.link hn
  constructor
  · intro hdir
    have hfits := FileSystem.length_le_of_isDirectory hdir
    obtain ⟨access, fault?, hs⟩ := FileSystem.isDirectory_iff.1 hdir
    obtain ⟨p, hp, hl⟩ := FileSystem.spotAt_eq_ok_iff.1 hs
    rw [FileSystem.resolve_child h.resolve h.passable hn hlink hfits] at hp
    cases hp
    rw [hn] at hl
    cases hl
    rfl
  · intro hdir
    cases spot with
    | dir access fault? =>
      have hr := (h.child hn).resolve
      exact FileSystem.isDirectory_iff.2 ⟨access, fault?, FileSystem.spotAt_eq_ok_iff.2 ⟨_, hr, hn⟩⟩
    | _ => cases hdir

/-- Where nothing is in the way, what is found is what is in the tree and no directory, at any
depth. -/
theorem found_iff (h : Plain fs dir d) : Found fs dir ns ↔
    (∃ spot, fs.look (d ++ ns) = some spot ∧ spot.isDir = false) ∧
      ns.getLast?.bind (fun name => extension? name.bytes) = some [99, 110, 102] := by
  induction ns generalizing dir d with
  | nil => simp [not_found_nil]
  | cons name ns ih =>
    rw [found_cons_iff, h.list, FileSystem.mem_names_iff]
    cases ns with
    | nil =>
      constructor
      · rintro ⟨⟨spot, hn⟩, ⟨-, hnil⟩ | ⟨hdir, -, hext⟩⟩
        · exact absurd hnil not_found_nil
        · rw [← Bool.not_eq_true, h.isDirectory_iff hn, Bool.not_eq_true] at hdir
          exact ⟨⟨spot, hn, hdir⟩, hext⟩
      · rintro ⟨⟨spot, hn, hdir⟩, hext⟩
        rw [← Bool.not_eq_true, ← h.isDirectory_iff hn, Bool.not_eq_true] at hdir
        exact ⟨⟨spot, hn⟩, Or.inr ⟨hdir, rfl, hext⟩⟩
    | cons m ms =>
      rw [List.append_cons d name (m :: ms), List.getLast?_cons_cons]
      constructor
      · rintro ⟨⟨spot, hn⟩, ⟨hdir, hfound⟩ | ⟨-, hnil, -⟩⟩
        · rw [h.isDirectory_iff hn] at hdir
          cases spot with
          | dir access fault? => exact (ih (h.child hn)).1 hfound
          | _ => cases hdir
        · cases hnil
      · rintro ⟨⟨spot, hs, hdir⟩, hext⟩
        obtain ⟨access, fault?, hn⟩ := FileSystem.exists_dir_of_look (List.cons_ne_nil m ms) hs
        exact ⟨⟨_, hn⟩, Or.inl ⟨(h.isDirectory_iff hn).2 rfl,
          (ih (h.child hn)).2 ⟨⟨spot, hs, hdir⟩, hext⟩⟩⟩

theorem spotAt_under (h : Plain fs dir d) {spot : Spot} (hns : ns ≠ [])
    (hs : fs.look (d ++ ns) = some spot) (hfits : (dir.under ns).length ≤ Path.maxLength) :
    fs.spotAt (dir.under ns) = .ok spot := by
  induction ns generalizing dir d with
  | nil => exact absurd rfl hns
  | cons name ns ih =>
    cases ns with
    | nil =>
      have hlink : ∀ goal, spot ≠ .link goal := by
        rintro goal rfl
        exact h.link hs
      refine FileSystem.spotAt_eq_ok_iff.2 ⟨d ++ [name], ?_, hs⟩
      exact FileSystem.resolve_child h.resolve h.passable hs hlink hfits
    | cons m ms =>
      rw [List.append_cons d name (m :: ms)] at hs
      obtain ⟨access, fault?, hn⟩ := FileSystem.exists_dir_of_look (List.cons_ne_nil m ms) hs
      exact ih (h.child hn) (List.cons_ne_nil m ms) hs hfits

theorem fault?_of_entered (h : Plain fs dir d) (hsub : Entered fs dir sub) :
    (fs.list sub).fault? = none := by
  induction hsub generalizing d with
  | start => rw [h.list]
  | deeper hmem hdir _ ih =>
    rw [h.list, FileSystem.mem_names_iff] at hmem
    obtain ⟨spot, hn⟩ := hmem
    cases spot with
    | dir access fault? => exact ih (h.child hn)
    | _ => cases (h.isDirectory_iff hn).1 hdir

theorem apart (h : Plain fs dir d) {log : Path} {id : Nat} {fs' : FileSystem} {spot : Spot}
    (hcreated : FileSystem.Created log id fs fs') (hns : ns ≠ [])
    (hs : fs.look (d ++ ns) = some spot) (hne : spot ≠ .file id) :
    fs'.fileId? (dir.under ns) ≠ some id := by
  intro hid
  have hs' := FileSystem.fileId?_eq_some_iff.1 hid
  rw [hcreated.spotAt (h.spotAt_under hns hs (FileSystem.length_le_of_spotAt hs'))] at hs'
  cases hs'
  exact hne rfl

theorem of_spots (hresolve : fs.resolve false dir = .ok d)
    (hdir : ∃ access fault?, fs.look d = some (.dir access fault?))
    (hopen : ∀ entry ∈ fs.spots, d <+: entry.1 → entry.2.isOpen = true)
    (hfits : ∀ entry ∈ fs.spots, d <+: entry.1 → entry.2.isDir = true →
      (dir.under (entry.1.drop d.length)).length ≤ Path.maxLength) : Plain fs dir d where
  resolve := hresolve
  isDir := hdir
  dir {ns access fault?} hd := by
    have hmem := FileSystem.mem_spots_of_look hd
    have hpre := List.prefix_append d ns
    have hroom := hfits _ hmem hpre rfl
    rw [List.drop_left] at hroom
    have hspot := hopen _ hmem hpre
    simp only [Spot.isOpen, Bool.and_eq_true, Option.isNone_iff_eq_none] at hspot
    exact ⟨hspot.1.1, hspot.1.2, hspot.2, hroom⟩
  link {ns goal} hl := by
    cases hopen _ (FileSystem.mem_spots_of_look hl) (List.prefix_append d ns)

end Plain

/-- What is below a place, has the extension `cnf` and is no directory. -/
def formulasBelow (fs : FileSystem) (d : Place) : List (List Name) :=
  fs.spots.filterMap fun entry =>
    if d <+: entry.1 ∧ entry.2.isDir = false ∧
      (entry.1.drop d.length).getLast?.bind (fun name => extension? name.bytes) =
        some [99, 110, 102]
    then some (entry.1.drop d.length) else none

theorem Plain.mem_formulasBelow_iff (h : Plain fs dir d) :
    ns ∈ formulasBelow fs d ↔ Found fs dir ns := by
  rw [h.found_iff, formulasBelow, List.mem_filterMap]
  constructor
  · rintro ⟨⟨p, spot⟩, hmem, hentry⟩
    split at hentry
    · rename_i hcond
      obtain ⟨⟨ms, rfl⟩, hdir, hext⟩ := hcond
      simp only [List.drop_left] at hext hentry
      cases hentry
      exact ⟨⟨spot, FileSystem.look_of_mem_spots hmem, hdir⟩, hext⟩
    · cases hentry
  · rintro ⟨⟨spot, hs, hdir⟩, hext⟩
    refine ⟨(d ++ ns, spot), FileSystem.mem_spots_of_look hs, ?_⟩
    simp only [List.drop_left]
    exact if_pos ⟨List.prefix_append _ _, hdir, hext⟩

end Benchmark
end DpllSat
