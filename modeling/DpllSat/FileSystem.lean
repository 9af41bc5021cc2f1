import DpllSat.FileError
import DpllSat.Path

/-! Files in memory: what stands at each place of a tree, the data of the files, and how a path is
followed through links and directories that may be closed. Pipes and devices are left out, since
to read one may never end. -/
namespace DpllSat

structure Access where
  read : Bool
  write : Bool
  search : Bool
  deriving DecidableEq

/-- What can stand in a tree. A file is a number, and more than one place can have the same. The
entries of a directory may break off with a fault when they are listed. -/
inductive Spot
  | dir (access : Access) (fault? : Option FileError)
  | file (id : Nat)
  | link (goal : Path)
  | socket
  deriving DecidableEq

def Spot.isDir : Spot → Bool
  | dir _ _ => true
  | _ => false

structure FileData where
  readable : Bool
  writable : Bool
  bytes : List UInt8

abbrev Place := List Name

structure FileSystem where
  spots : List (Place × Spot)
  nodup : (spots.map Prod.fst).Nodup
  /-- What is not the root is in a directory. -/
  closed : ∀ entry ∈ spots, entry.1 = [] ∨
    ∃ parent ∈ spots, parent.1 = entry.1.dropLast ∧ parent.2.isDir = true
  data : Nat → FileData
  here : Place

/-- The entries of a directory, up to a fault if there was one. -/
structure Listing where
  names : List Name
  fault? : Option FileError

namespace Path

def parts (p : Path) : Except FileError (List (List UInt8)) :=
  if p.bytes.contains 0 then .error .nulByte
  else if p.bytes = [] then .error .notFound
  else if maxLength < p.length then .error .nameTooLong
  else .ok (p.bytes.splitOn 47)

def origin (p : Path) (here : Place) : Place := if p.bytes.head? = some 47 then [] else here

end Path

inductive Stop
  | dir (place : Place)
  | leaf (place : Place)
  | vacant (place : Place)
  | link (goal : Path)

def Stop.of (place : Place) : Option Spot → Stop
  | none => vacant place
  | some (.dir _ _) => dir place
  | some (.file _) | some .socket => leaf place
  | some (.link goal) => link goal

/-- Looks up one part in a directory. Two dots lead to the directory above, and from the root to
the root. A name that is to be a new file's must not have a slash behind it. -/
def lookUp (look : Place → Option Spot) (slash : Bool) (place : Place) (part : List UInt8) :
    Except FileError Stop :=
  match look place with
  | some (.dir access _) =>
    if !access.search then .error .denied
    else if part = [46] then .ok (.dir place)
    else if part = [46, 46] then .ok (.dir place.dropLast)
    else if slash then .error .isDirectory
    else match Name.of? part with
      | none => .error .nameTooLong
      | some name => .ok (.of (place ++ [name]) (look (place ++ [name])))
  | _ => .error .notDirectory

/-- Where the parts of a path lead. At a link `jump` goes on from the directory that it is in. Where
a file is to be created, the last part need not be there. -/
def walk (look : Place → Option Spot) (creating : Bool)
    (jump : Place → Path → List (List UInt8) → Except FileError Place) (place : Place) :
    List (List UInt8) → Except FileError Place
  | [] => .ok place
  | part :: rest =>
    if part = [] then walk look creating jump place rest
    else match lookUp look (creating && !rest.isEmpty && rest.all List.isEmpty) place part with
      | .error e => .error e
      | .ok (.dir next) => walk look creating jump next rest
      | .ok (.leaf next) => if rest = [] then .ok next else .error .notDirectory
      | .ok (.vacant next) => if creating ∧ rest = [] then .ok next else .error .notFound
      | .ok (.link goal) => jump place goal rest

def follow (look : Place → Option Spot) (creating : Bool) :
    Nat → Place → List (List UInt8) → Except FileError Place
  | 0 => walk look creating fun _ _ _ => .error .tooManyLinks
  | links + 1 => walk look creating fun place goal rest =>
    match goal.parts with
    | .error e => .error e
    | .ok ps => follow look creating links (goal.origin place) (ps ++ rest)

namespace FileSystem

def maxLinks : Nat := 40

variable (fs : FileSystem)

def look (place : Place) : Option Spot := fs.spots.lookup place

def resolve (creating : Bool) (path : Path) : Except FileError Place :=
  match path.parts with
  | .error e => .error e
  | .ok ps => follow fs.look creating maxLinks (path.origin fs.here) ps

def spotAt (path : Path) : Except FileError Spot :=
  match fs.resolve false path with
  | .error e => .error e
  | .ok place =>
    match fs.look place with
    | none => .error .notFound
    | some spot => .ok spot

def read (path : Path) : Except FileError (List UInt8) :=
  match fs.spotAt path with
  | .error e => .error e
  | .ok (.dir access _) => .error (if access.read then .isDirectory else .denied)
  | .ok (.file id) => if (fs.data id).readable then .ok (fs.data id).bytes else .error .denied
  | .ok (.link _) => .error .tooManyLinks
  | .ok .socket => .error .noDevice

def isDirectory (path : Path) : Bool :=
  match fs.spotAt path with
  | .ok (.dir _ _) => true
  | _ => false

def names (place : Place) : List Name :=
  (fs.spots.map Prod.fst).filterMap fun entry =>
    if entry.dropLast = place then entry.getLast? else none

def list (path : Path) : Listing :=
  match fs.resolve false path with
  | .error e => ⟨[], some e⟩
  | .ok place =>
    match fs.look place with
    | none => ⟨[], some .notFound⟩
    | some (.dir access fault?) =>
      if access.read then ⟨fs.names place, fault?⟩ else ⟨[], some .denied⟩
    | some _ => ⟨[], some .notDirectory⟩

def setBytes (id : Nat) (bytes : List UInt8) : FileSystem :=
  let data := { fs.data id with bytes := bytes }
  { fs with data := fun i => if i = id then data else fs.data i }

def append (id : Nat) (more : List UInt8) : FileSystem :=
  fs.setBytes id ((fs.data id).bytes ++ more)

def fresh : Nat :=
  (fs.spots.map fun entry => match entry.2 with | .file id => id + 1 | _ => 0).foldr max 0

def add (place : Place) {access : Access} {fault? : Option FileError}
    (h : fs.look place = none) (hdir : fs.look place.dropLast = some (.dir access fault?)) :
    FileSystem where
  spots := (place, .file fs.fresh) :: fs.spots
  nodup := by
    rw [List.map_cons, List.nodup_cons]
    refine ⟨fun hmem => ?_, fs.nodup⟩
    obtain ⟨entry, hentry, rfl⟩ := List.mem_map.1 hmem
    simpa using List.lookup_eq_none_iff.1 h entry hentry
  closed := by
    obtain ⟨front, back, hspots, -⟩ := List.lookup_eq_some_iff.1 hdir
    rw [List.forall_mem_cons]
    refine ⟨Or.inr ⟨(place.dropLast, .dir access fault?), ?_, rfl, rfl⟩, fun entry hentry => ?_⟩
    · rw [hspots]
      simp
    · rcases fs.closed entry hentry with hroot | ⟨parent, hparent, hplace⟩
      · exact Or.inl hroot
      · exact Or.inr ⟨parent, List.mem_cons_of_mem _ hparent, hplace⟩
  data := fun i => if i = fs.fresh then ⟨true, true, []⟩ else fs.data i
  here := fs.here

/-- Creates an empty file, or empties the one that is there. The number of the file comes with what
the files are then. -/
def create (path : Path) : Except FileError (Nat × FileSystem) :=
  match fs.resolve true path with
  | .error e => .error e
  | .ok place =>
    match h : fs.look place with
    | some (.dir _ _) => .error .isDirectory
    | some (.file id) =>
      if (fs.data id).writable then .ok (id, fs.setBytes id []) else .error .denied
    | some (.link _) => .error .tooManyLinks
    | some .socket => .error .noDevice
    | none =>
      match hdir : fs.look place.dropLast with
      | some (.dir access _) =>
        if access.write then .ok (fs.fresh, fs.add place h hdir) else .error .denied
      | _ => .error .notDirectory

end FileSystem
end DpllSat
