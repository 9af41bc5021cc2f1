import DpllSat.Proofs.Files.Walk
import Mathlib.Data.List.Induction
import Mathlib.Data.List.Nodup

/-! Paths below a directory. What is in a directory is reached by its name, unless the path is too
long. -/
namespace DpllSat

variable {look : Place → Option Spot} {place d : Place} {name : Name} {spot : Spot}
  {ps tail : List (List UInt8)}
  {jump jump' : Place → Path → List (List UInt8) → Except FileError Place}

theorem look_of_leaf {slash : Bool} {part : List UInt8} {next : Place}
    (h : lookUp look slash place part = .ok (.leaf next)) : ¬ Passable look next := by
  rintro ⟨access, fault?, hl, -⟩
  rcases lookUp_cases h with ⟨-, h⟩ | ⟨-, h⟩ | ⟨name, -, h⟩
  · cases h
  · cases h
  · cases hs : look (place ++ [name]) with
    | none =>
      rw [hs] at h
      cases h
    | some s =>
      rw [hs] at h
      cases s <;> cases h <;> rw [hs] at hl <;> cases hl

/-- A walk goes on from a directory to what is in it. An empty part at the end makes no
difference. -/
theorem walk_concat (htail : tail = [] ∨ tail = [[]]) (hd : Passable look d)
    (hs : look (d ++ [name]) = some spot) (hlink : ∀ goal, spot ≠ .link goal)
    (hjump : ∀ {a goal rest}, jump a goal (rest ++ tail) = .ok d →
      jump' a goal (rest ++ [name.bytes]) = .ok (d ++ [name]))
    (h : walk look false jump place (ps ++ tail) = .ok d) :
    walk look false jump' place (ps ++ [name.bytes]) = .ok (d ++ [name]) := by
  induction ps generalizing place with
  | nil =>
    -- the walk was at its end, so the name is looked up in `d`
    have hplace : place = d := by
      rcases htail with rfl | rfl
      · simpa [walk] using h
      · simpa [walk] using h
    rw [hplace, List.nil_append, walk, if_neg name.ne_nil]
    simp only [Bool.false_and, lookUp_of_name hd, hs]
    cases spot with
    | dir access fault? => rfl
    | file id => rfl
    | socket => rfl
    | link goal => exact absurd rfl (hlink goal)
  | cons part rest ih =>
    rw [List.cons_append, walk] at h ⊢
    by_cases hpart : part = []
    · rw [if_pos hpart] at h ⊢
      exact ih h
    rw [if_neg hpart] at h ⊢
    simp only [Bool.false_and] at h ⊢
    split at h
    · cases h
    · exact ih h
    · rename_i next hl
      split at h
      · cases h
        exact absurd hd (look_of_leaf hl)
      · cases h
    · simp at h
    · exact hjump h

theorem follow_concat {links : Nat} (htail : tail = [] ∨ tail = [[]]) (hd : Passable look d)
    (hs : look (d ++ [name]) = some spot) (hlink : ∀ goal, spot ≠ .link goal)
    (h : follow look false links place (ps ++ tail) = .ok d) :
    follow look false links place (ps ++ [name.bytes]) = .ok (d ++ [name]) := by
  induction links generalizing place ps with
  | zero => exact walk_concat htail hd hs hlink (fun hj => by cases hj) h
  | succ links ih =>
    refine walk_concat htail hd hs hlink (fun hj => ?_) h
    split at hj
    · cases hj
    · rw [← List.append_assoc] at hj ⊢
      exact ih hj

namespace Path

variable {dir : Path}

theorem parts_eq_ok_iff {p : Path} : p.parts = .ok ps ↔
    0 ∉ p.bytes ∧ p.bytes ≠ [] ∧ p.length ≤ maxLength ∧ p.bytes.splitOn 47 = ps := by
  unfold parts
  split_ifs with hnul hempty hlong
  · simp_all
  · simp_all
  · simp [Nat.not_le.2 hlong]
  · simp_all

/-- The parts of a path below a directory are those of the directory and the name. If the directory
ends in a slash, the empty part after that is gone. -/
theorem parts_child (h : dir.parts = .ok ps) (hfits : (dir.child name).length ≤ maxLength) :
    ∃ qs tail, ps = qs ++ tail ∧ (tail = [] ∨ tail = [[]]) ∧
      (dir.child name).parts = .ok (qs ++ [name.bytes]) := by
  obtain ⟨hnul, hne, -, rfl⟩ := parts_eq_ok_iff.1 h
  have hname : name.bytes.splitOn 47 = [name.bytes] := List.splitOn_eq_singleton name.slash
  have hparts {qs : List (List UInt8)}
      (hqs : (dir.bytes ++ dir.gap ++ name.bytes).splitOn 47 = qs ++ [name.bytes]) :
      (dir.child name).parts = .ok (qs ++ [name.bytes]) := by
    refine parts_eq_ok_iff.2 ⟨?_, ?_, hfits, hqs⟩
    · have hgap : 0 ∉ dir.gap := by
        unfold gap
        split <;> simp
      simp [child, hnul, hgap, name.nul]
    · simp [child, hne]
  by_cases hlast : dir.bytes.getLast? = some 47
  · obtain ⟨front, hfront⟩ := List.getLast?_eq_some_iff.1 hlast
    have hgap : dir.gap = [] := by simp [gap, hlast]
    refine ⟨front.splitOn 47, [[]], ?_, Or.inr rfl, hparts ?_⟩
    · rw [hfront]
      exact List.splitOn_append_cons_self front []
    · rw [hgap, hfront, List.append_nil, List.append_assoc, List.singleton_append,
        List.splitOn_append_cons_self, hname]
  · have hgap : dir.gap = [47] := by
      obtain ⟨b, hb⟩ := Option.ne_none_iff_exists'.1 (mt List.getLast?_eq_none_iff.1 hne)
      rw [hb] at hlast
      unfold gap
      split
      · simp_all
      · simp_all
      · rfl
    refine ⟨dir.bytes.splitOn 47, [], (List.append_nil _).symm, Or.inl rfl, hparts ?_⟩
    rw [hgap, List.append_assoc, List.singleton_append, List.splitOn_append_cons_self, hname]

theorem origin_child (h : dir.parts = .ok ps) (here : Place) :
    (dir.child name).origin here = dir.origin here := by
  have hne := (parts_eq_ok_iff.1 h).2.1
  simp only [origin, child, List.append_assoc, List.head?_append_of_ne_nil _ hne]

end Path

namespace FileSystem

variable {fs : FileSystem} {dir path : Path} {p : Place}

theorem resolve_child (hdir : fs.resolve false dir = .ok d) (hd : Passable fs.look d)
    (hs : fs.look (d ++ [name]) = some spot) (hlink : ∀ goal, spot ≠ .link goal)
    (hfits : (dir.child name).length ≤ Path.maxLength) :
    fs.resolve false (dir.child name) = .ok (d ++ [name]) := by
  unfold resolve at hdir ⊢
  cases hp : dir.parts with
  | error e =>
    rw [hp] at hdir
    cases hdir
  | ok ps =>
    obtain ⟨qs, tail, rfl, htail, hparts⟩ := Path.parts_child hp hfits
    rw [hp] at hdir
    rw [hparts, Path.origin_child hp]
    exact follow_concat htail hd hs hlink hdir

theorem look_isSome_iff : (∃ s, fs.look p = some s) ↔ p ∈ fs.spots.map Prod.fst := by
  rw [← Option.ne_none_iff_exists', look, Ne, List.lookup_eq_none_iff]
  simp

theorem mem_spots_of_look (h : fs.look p = some spot) : (p, spot) ∈ fs.spots := by
  obtain ⟨front, back, hspots, -⟩ := List.lookup_eq_some_iff.1 h
  simp [hspots]

theorem mem_names_iff : name ∈ fs.names d ↔ ∃ s, fs.look (d ++ [name]) = some s := by
  rw [look_isSome_iff, names, List.mem_filterMap]
  constructor
  · rintro ⟨entry, hentry, h⟩
    split at h
    · rename_i hd
      obtain ⟨front, rfl⟩ := List.getLast?_eq_some_iff.1 h
      rwa [← hd, List.dropLast_concat]
    · cases h
  · intro h
    exact ⟨d ++ [name], h, by simp⟩

theorem nodup_names (fs : FileSystem) (d : Place) : (fs.names d).Nodup := by
  refine List.Nodup.filterMap (fun p q n hp hq => ?_) fs.nodup
  have hconcat {p : Place} (h : n ∈ if p.dropLast = d then p.getLast? else none) :
      p = d ++ [n] := by
    split at h
    · rename_i hd
      obtain ⟨front, rfl⟩ := List.getLast?_eq_some_iff.1 h
      rw [← hd, List.dropLast_concat]
    · cases h
  rw [hconcat hp, hconcat hq]

theorem nodup_list (fs : FileSystem) (path : Path) : (fs.list path).names.Nodup := by
  unfold list
  split
  · exact .nil
  split
  · exact .nil
  · split
    · exact nodup_names fs _
    · exact .nil
  · exact .nil

theorem list_of_resolve {access : Access} {fault? : Option FileError}
    (hr : fs.resolve false path = .ok p) (hl : fs.look p = some (.dir access fault?))
    (hread : access.read = true) : fs.list path = ⟨fs.names p, fault?⟩ := by
  simp [list, hr, hl, hread]

theorem look_of_mem_spots (h : (p, spot) ∈ fs.spots) : fs.look p = some spot := by
  obtain ⟨s, hs⟩ := look_isSome_iff.2 (List.mem_map_of_mem h)
  have heq := List.inj_on_of_nodup_map fs.nodup h (mem_spots_of_look hs) rfl
  cases heq
  exact hs

/-- What stands anywhere but at the root is in a directory. -/
theorem exists_parent (h : fs.look (d ++ [name]) = some spot) :
    ∃ access fault?, fs.look d = some (.dir access fault?) := by
  rcases fs.closed _ (mem_spots_of_look h) with hroot | ⟨⟨p, s⟩, hmem, hp, hs⟩
  · simp at hroot
  · rw [List.dropLast_concat] at hp
    cases hp
    cases s with
    | dir access fault? => exact ⟨access, fault?, look_of_mem_spots hmem⟩
    | _ => cases hs

theorem exists_dir_of_look {ns : List Name} (hns : ns ≠ []) (h : fs.look (d ++ ns) = some spot) :
    ∃ access fault?, fs.look d = some (.dir access fault?) := by
  induction ns using List.reverseRecOn generalizing spot with
  | nil => exact absurd rfl hns
  | append_singleton ns n ih =>
    rw [← List.append_assoc] at h
    obtain ⟨access, fault?, hdir⟩ := exists_parent h
    by_cases hnil : ns = []
    · rw [hnil, List.append_nil] at hdir
      exact ⟨access, fault?, hdir⟩
    · exact ih hnil hdir

theorem length_le_of_spotAt (h : fs.spotAt path = .ok spot) : path.length ≤ Path.maxLength := by
  unfold spotAt resolve at h
  cases hp : path.parts with
  | error e =>
    rw [hp] at h
    cases h
  | ok ps => exact (Path.parts_eq_ok_iff.1 hp).2.2.1

theorem isDirectory_iff : fs.isDirectory path = true ↔
    ∃ access fault?, fs.spotAt path = .ok (.dir access fault?) := by
  unfold isDirectory
  split
  · rename_i access fault? h
    simp [h]
  · rename_i h
    simp only [Bool.false_eq_true, false_iff, not_exists]
    exact fun access fault? hs => h access fault? hs

theorem length_le_of_isDirectory (h : fs.isDirectory path = true) :
    path.length ≤ Path.maxLength := by
  obtain ⟨access, fault?, h⟩ := isDirectory_iff.1 h
  exact length_le_of_spotAt h

end FileSystem

/-! Dots before a path make it longer and lead nowhere else. -/

namespace Path

/-- A path behind so many dots, each with a slash. -/
def dotted : Nat → Path → Path
  | 0, p => p
  | n + 1, p => ⟨46 :: 47 :: (dotted n p).bytes⟩

variable {dir p : Path}

theorem length_dotted (n : Nat) (p : Path) : (dotted n p).length = 2 * n + p.length := by
  induction n with
  | zero => simp [dotted]
  | succ n ih =>
    show (dotted n p).length + 2 = _
    omega

theorem bytes_dotted_ne_nil (h : p.bytes ≠ []) (n : Nat) : (dotted n p).bytes ≠ [] := by
  cases n with
  | zero => exact h
  | succ n => exact List.cons_ne_nil _ _

theorem gap_dotted (h : dir.bytes ≠ []) (n : Nat) : (dotted n dir).gap = dir.gap := by
  induction n with
  | zero => rfl
  | succ n ih =>
    have hlast : (dotted (n + 1) dir).bytes.getLast? = (dotted n dir).bytes.getLast? := by
      rw [dotted, List.getLast?_cons_cons,
        List.getLast?_cons_of_ne_nil (bytes_dotted_ne_nil h n)]
    rw [← ih, gap, hlast]
    rfl

theorem child_dotted (h : dir.bytes ≠ []) (n : Nat) (name : Name) :
    (dotted n dir).child name = dotted n (dir.child name) := by
  have hbytes : (dotted n dir).bytes ++ dir.gap ++ name.bytes =
      (dotted n (dir.child name)).bytes := by
    induction n with
    | zero => rfl
    | succ n ih => exact congrArg (46 :: 47 :: ·) ih
  rw [child, gap_dotted h, hbytes]

theorem parts_dotted (n : Nat) (h : p.parts = .ok ps)
    (hfits : (dotted n p).length ≤ maxLength) :
    (dotted n p).parts = .ok (List.replicate n [46] ++ ps) := by
  obtain ⟨hnul, hne, -, rfl⟩ := parts_eq_ok_iff.1 h
  refine parts_eq_ok_iff.2 ⟨?_, bytes_dotted_ne_nil hne n, hfits, ?_⟩
  · clear hfits
    induction n with
    | zero => exact hnul
    | succ n ih => simp [dotted, ih]
  · clear hfits
    induction n with
    | zero => rfl
    | succ n ih =>
      have hdot : [(46 : UInt8)].splitOn 47 = [[46]] := rfl
      show ([46] ++ 47 :: (dotted n p).bytes).splitOn 47 = _
      rw [List.splitOn_append_cons_self, hdot, ih]
      rfl

theorem origin_dotted (h : p.bytes.head? ≠ some 47) (n : Nat) (here : Place) :
    (dotted n p).origin here = here := by
  cases n with
  | zero => exact if_neg h
  | succ n => rfl

end Path

theorem walk_dots {creating : Bool} (h : Passable look place) (n : Nat) :
    walk look creating jump place (List.replicate n [46] ++ ps) =
      walk look creating jump place ps := by
  induction n with
  | zero => rfl
  | succ n ih =>
    rw [List.replicate_succ, List.cons_append, walk, if_neg (List.cons_ne_nil _ _),
      lookUp_of_dot h]
    exact ih

theorem FileSystem.resolve_dotted {fs : FileSystem} {path : Path} {creating : Bool}
    (hhere : Passable fs.look fs.here) (hhead : path.bytes.head? ≠ some 47) (n : Nat)
    (hfits : (Path.dotted n path).length ≤ Path.maxLength)
    (h : fs.resolve creating path = .ok place) :
    fs.resolve creating (Path.dotted n path) = .ok place := by
  unfold resolve at h ⊢
  cases hp : path.parts with
  | error e =>
    rw [hp] at h
    cases h
  | ok ps =>
    rw [hp] at h
    rw [Path.parts_dotted n hp hfits, Path.origin_dotted hhead]
    simp only [Path.origin, if_neg hhead, maxLinks, follow] at h ⊢
    rwa [walk_dots hhere]

end DpllSat
