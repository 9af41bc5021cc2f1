import DpllSat.Text.Encoding

/-! Names of directory entries, and paths. Both are bytes, which need not be a text. -/
namespace DpllSat

/-- A name that a path can spell: neither empty nor one of the two that stand for directories. -/
structure Name where
  bytes : List UInt8
  ne_nil : bytes ≠ []
  ne_dot : bytes ≠ [46]
  ne_dots : bytes ≠ [46, 46]
  slash : 47 ∉ bytes
  nul : 0 ∉ bytes
  length_le : bytes.length ≤ 255
  deriving DecidableEq

namespace Name

def of? (bytes : List UInt8) : Option Name :=
  if h : bytes ≠ [] ∧ bytes ≠ [46] ∧ bytes ≠ [46, 46] ∧ 47 ∉ bytes ∧ 0 ∉ bytes ∧
      bytes.length ≤ 255 then
    some ⟨bytes, h.1, h.2.1, h.2.2.1, h.2.2.2.1, h.2.2.2.2.1, h.2.2.2.2.2⟩
  else none

theorem of?_eq_some_iff {bytes : List UInt8} {n : Name} : of? bytes = some n ↔ n.bytes = bytes := by
  unfold of?
  split
  · exact ⟨fun h => by cases h; rfl, fun h => by subst h; rfl⟩
  · rename_i h
    refine ⟨nofun, fun hn => absurd ?_ h⟩
    subst hn
    exact ⟨n.ne_nil, n.ne_dot, n.ne_dots, n.slash, n.nul, n.length_le⟩

@[simp] theorem of?_bytes (n : Name) : of? n.bytes = some n := of?_eq_some_iff.2 rfl

instance : LT Name := ⟨fun a b => a.bytes < b.bytes⟩

instance (a b : Name) : Decidable (a < b) := inferInstanceAs (Decidable (a.bytes < b.bytes))

end Name

structure Path where
  bytes : List UInt8
  deriving DecidableEq

namespace Path

def ofText (s : String) : Path := ⟨Text.encode s.toList⟩

def text (p : Path) : String := String.ofList (Text.lossy p.bytes)

def length (p : Path) : Nat := p.bytes.length

/-- The most bytes that a path can have and still lead anywhere. -/
def maxLength : Nat := 4095

/-- What stands between the path of a directory and a name in it. -/
def gap (p : Path) : List UInt8 :=
  match p.bytes.getLast? with
  | none | some 47 => []
  | some _ => [47]

def child (dir : Path) (name : Name) : Path := ⟨dir.bytes ++ dir.gap ++ name.bytes⟩

def under (dir : Path) (names : List Name) : Path := names.foldl child dir

theorem length_lt_child (dir : Path) (name : Name) : dir.length < (dir.child name).length := by
  have hpos := List.length_pos_iff.2 name.ne_nil
  simp only [length, child, List.length_append]
  omega

end Path
end DpllSat
