import DpllSat.Dimacs.Reader
import DpllSat.Proofs.Files.Walk
import Mathlib.Data.List.MinMax

/-! What creating a file and writing to it changes: nothing but what paths to that very file read
as. -/
namespace DpllSat
namespace FileSystem

variable {fs fs' : FileSystem} {path log : Path} {place p : Place} {id i : Nat} {spot : Spot}
  {more : List UInt8}

def fileId? (fs : FileSystem) (path : Path) : Option Nat :=
  match fs.spotAt path with
  | .ok (.file id) => some id
  | _ => none

def formula? (fs : FileSystem) (path : Path) : Option Dimacs.Reading :=
  match fs.read path with
  | .error _ => none
  | .ok bytes => (Dimacs.read bytes).toOption

theorem fileId?_eq_some_iff : fs.fileId? path = some id ↔ fs.spotAt path = .ok (.file id) := by
  unfold fileId?
  split
  · rename_i h
    simp [h]
  · rename_i h
    exact ⟨nofun, fun hs => absurd hs (h id)⟩

theorem spotAt_eq_ok_iff : fs.spotAt path = .ok spot ↔
    ∃ place, fs.resolve false path = .ok place ∧ fs.look place = some spot := by
  unfold spotAt
  cases hr : fs.resolve false path with
  | error e => simp
  | ok place => cases hl : fs.look place <;> simp [hl]

@[simp] theorem spotAt_append (fs : FileSystem) (id : Nat) (more : List UInt8) (path : Path) :
    (fs.append id more).spotAt path = fs.spotAt path := rfl

@[simp] theorem data_append (fs : FileSystem) (id : Nat) (more : List UInt8) :
    (fs.append id more).data id = { fs.data id with bytes := (fs.data id).bytes ++ more } :=
  if_pos rfl

theorem data_append_of_ne (h : i ≠ id) : (fs.append id more).data i = fs.data i := if_neg h

theorem append_nil (fs : FileSystem) (id : Nat) : fs.append id [] = fs := by
  have hdata : (fs.append id []).data = fs.data := by
    funext i
    by_cases h : i = id
    · rw [h, data_append, List.append_nil]
    · exact data_append_of_ne h
  show { fs with data := (fs.append id []).data } = fs
  rw [hdata]

theorem append_append (fs : FileSystem) (id : Nat) (xs ys : List UInt8) :
    (fs.append id xs).append id ys = fs.append id (xs ++ ys) := by
  have hdata : ((fs.append id xs).append id ys).data = (fs.append id (xs ++ ys)).data := by
    funext i
    by_cases h : i = id
    · rw [h, data_append, data_append, data_append, List.append_assoc]
    · rw [data_append_of_ne h, data_append_of_ne h, data_append_of_ne h]
  show { fs with data := ((fs.append id xs).append id ys).data } = _
  rw [hdata]
  rfl

/-- The files after an empty one has been created, or one has been emptied. -/
structure Created (log : Path) (id : Nat) (fs fs' : FileSystem) : Prop where
  gains : Gains id fs.look fs'.look
  here : fs'.here = fs.here
  leads : fs'.fileId? log = some id
  bytes : (fs'.data id).bytes = []
  data : ∀ i ≠ id, fs'.data i = fs.data i

variable {access : Access} {fault? : Option FileError}

theorem look_add (h : fs.look place = none)
    (hdir : fs.look place.dropLast = some (.dir access fault?)) (p : Place) :
    (fs.add place h hdir).look p = if p = place then some (.file fs.fresh) else fs.look p := by
  show List.lookup p ((place, Spot.file fs.fresh) :: fs.spots) = _
  rw [List.lookup_cons]
  by_cases hp : p = place
  · simp [hp]
  · simp [hp, beq_false_of_ne hp, look]

theorem gains_add (h : fs.look place = none)
    (hdir : fs.look place.dropLast = some (.dir access fault?)) :
    Gains fs.fresh fs.look (fs.add place h hdir).look := by
  constructor
  · intro p s hs
    rw [look_add, if_neg, hs]
    rintro rfl
    rw [h] at hs
    cases hs
  · intro p s hs
    rw [look_add] at hs
    split at hs
    · exact Or.inr (Option.some.inj hs).symm
    · exact Or.inl hs

theorem resolve_of_gains (h : Gains id fs.look fs'.look) (hhere : fs'.here = fs.here)
    {creating : Bool} (hnew : creating = true → fs'.look place ≠ none)
    (hr : fs.resolve creating path = .ok place) : fs'.resolve false path = .ok place := by
  unfold resolve at hr ⊢
  cases hp : path.parts with
  | error e =>
    rw [hp] at hr
    cases hr
  | ok ps =>
    rw [hp] at hr
    rw [hhere]
    exact h.follow hnew hr

theorem resolve_back (h : Gains id fs.look fs'.look) (hhere : fs'.here = fs.here)
    (hr : fs'.resolve false path = .ok place) :
    fs'.look place = some (.file id) ∨ fs.resolve false path = .ok place := by
  unfold resolve at hr ⊢
  cases hp : path.parts with
  | error e =>
    rw [hp] at hr
    cases hr
  | ok ps =>
    rw [hp, hhere] at hr
    exact h.follow_back hr

/-- The number for a new file is no other file's. -/
theorem ne_fresh (h : fs.look p = some (.file i)) : i ≠ fs.fresh := by
  obtain ⟨front, back, hspots, -⟩ := List.lookup_eq_some_iff.1 h
  have hmem : (p, Spot.file i) ∈ fs.spots := by simp [hspots]
  exact Nat.ne_of_lt (List.le_max_of_le' 0 (List.mem_map_of_mem hmem) (Nat.le_refl (i + 1)))

theorem created_of_create (h : fs.create log = .ok (id, fs')) : Created log id fs fs' := by
  unfold create at h
  split at h
  · cases h
  rename_i place hr
  split at h
  · cases h
  · -- a file that was there is emptied
    rename_i i hl
    split at h
    · cases h
      have hnew : fs.look place ≠ none := by rw [hl]; simp
      refine ⟨.refl id _, rfl, ?_, ?_, fun i hi => if_neg hi⟩
      · refine fileId?_eq_some_iff.2 (spotAt_eq_ok_iff.2 ⟨place, ?_, hl⟩)
        exact resolve_of_gains (.refl id fs.look) rfl (fun _ => hnew) hr
      · show (if id = id then _ else _ : FileData).bytes = []
        rw [if_pos rfl]
    · cases h
  · cases h
  · cases h
  · -- a file is added where nothing was
    rename_i hl
    split at h
    · rename_i hdir
      split at h
      · cases h
        have hnew : (fs.add place hl hdir).look place = some (.file fs.fresh) := by
          rw [look_add, if_pos rfl]
        refine ⟨gains_add hl hdir, rfl, ?_, ?_, fun i hi => if_neg hi⟩
        · refine fileId?_eq_some_iff.2 (spotAt_eq_ok_iff.2 ⟨place, ?_, hnew⟩)
          exact resolve_of_gains (gains_add hl hdir) rfl (fun _ => by rw [hnew]; simp) hr
        · show (if fs.fresh = fs.fresh then _ else _ : FileData).bytes = []
          rw [if_pos rfl]
      · cases h
    · cases h

namespace Created

variable (h : Created log id fs fs')
include h

theorem spotAt (hs : fs.spotAt path = .ok spot) : fs'.spotAt path = .ok spot := by
  obtain ⟨place, hr, hl⟩ := spotAt_eq_ok_iff.1 hs
  have hr' := resolve_of_gains h.gains h.here (fun hc => Bool.noConfusion hc) hr
  exact spotAt_eq_ok_iff.2 ⟨place, hr', h.gains.keep hl⟩

theorem spotAt_back (hs : fs'.spotAt path = .ok spot) :
    spot = .file id ∨ fs.spotAt path = .ok spot := by
  obtain ⟨place, hr, hl⟩ := spotAt_eq_ok_iff.1 hs
  rcases resolve_back h.gains h.here hr with hnew | hr
  · rw [hnew] at hl
    exact Or.inl (Option.some.inj hl).symm
  · rcases h.gains.back hl with hl | he
    · exact Or.inr (spotAt_eq_ok_iff.2 ⟨place, hr, hl⟩)
    · exact Or.inl he

/-- Whatever has been written to the file, other paths read as they did. -/
theorem formula?_append_of_ne (hne : fs'.fileId? path ≠ some id) (more : List UInt8) :
    (fs'.append id more).formula? path = fs.formula? path := by
  cases hs' : fs'.spotAt path with
  | error e' =>
    cases hs : fs.spotAt path with
    | error e => simp [formula?, read, hs, hs']
    | ok spot =>
      rw [h.spotAt hs] at hs'
      cases hs'
  | ok spot =>
    have hfile : spot ≠ .file id := by
      rintro rfl
      exact hne (fileId?_eq_some_iff.2 hs')
    have hs := (h.spotAt_back hs').resolve_left hfile
    cases spot with
    | dir access fault? => simp [formula?, read, hs, hs']
    | link goal => simp [formula?, read, hs, hs']
    | socket => simp [formula?, read, hs, hs']
    | file i =>
      have hi : i ≠ id := fun hi => hfile (hi ▸ rfl)
      simp [formula?, read, hs, hs', data_append_of_ne hi, h.data i hi]

/-- A file that holds no formula is none by any path. -/
theorem formula?_append_of_eq (hid : fs'.fileId? path = some id) {e : Dimacs.ReadError}
    (he : Dimacs.read more = .error e) : (fs'.append id more).formula? path = none := by
  rw [fileId?_eq_some_iff] at hid
  unfold formula? read
  rw [spotAt_append, hid]
  simp only [data_append, h.bytes, List.nil_append]
  split
  · rfl
  · rename_i bytes hb
    split at hb
    · cases hb
      rw [he]
      rfl
    · cases hb

end Created
end FileSystem
end DpllSat
