import DpllSat.Literal
import Std.Data.HashMap

/-! Tables of truth values. A table has a cell for every index below its size, and literals are
written into the cells of their variables. A literal whose variable has no cell is skipped, and a
later literal of a variable overrides the earlier ones. A cell takes no room until it is written. -/
namespace DpllSat

structure TruthTable where
  size : Nat
  written : Std.HashMap Nat Bool

namespace TruthTable

def blank (size : Nat) : TruthTable := ⟨size, ∅⟩

/-- What the cell of index `i` holds, if there is such a cell. -/
def cell? (t : TruthTable) (i : Nat) : Option (Option Bool) :=
  if i < t.size then some t.written[i]? else none

def write (t : TruthTable) (l : Lit) : TruthTable :=
  if l.var.index < t.size then { t with written := t.written.insert l.var.index l.positive }
  else t

def ofLits (size : Nat) (ls : List Lit) : TruthTable := ls.foldl write (blank size)

def holds (t : TruthTable) (l : Lit) : Bool := t.cell? l.var.index == some (some l.positive)

@[simp] theorem size_write (t : TruthTable) (l : Lit) : (t.write l).size = t.size := by
  unfold write
  split <;> rfl

@[simp] theorem size_ofLits (size : Nat) (ls : List Lit) : (ofLits size ls).size = size := by
  suffices h : ∀ t : TruthTable, (ls.foldl write t).size = t.size from h (blank size)
  intro t
  induction ls generalizing t with
  | nil => rfl
  | cons l ls ih => rw [List.foldl_cons, ih, size_write]

theorem isSome_cell?_iff {t : TruthTable} {i : Nat} : (t.cell? i).isSome ↔ i < t.size := by
  unfold cell?
  split <;> simp_all

theorem cell?_write {t : TruthTable} {l : Lit} (h : l.var.index < t.size) (i : Nat) :
    (t.write l).cell? i = if l.var.index = i then some (some l.positive) else t.cell? i := by
  by_cases hi : l.var.index = i
  · subst hi
    simp [write, cell?, h]
  · simp [write, cell?, h, hi, Std.HashMap.getElem?_insert]

theorem holds_blank (size : Nat) (l : Lit) : (blank size).holds l = false := by
  simp [holds, cell?, blank]

/-- Writing a literal settles what its cell holds, and changes no other cell. -/
theorem holds_write {t : TruthTable} {k l : Lit} (hl : l.var.index < t.size) :
    (t.write k).holds l = if k.var = l.var then decide (k = l) else t.holds l := by
  by_cases hk : k.var.index < t.size
  · unfold holds
    rw [cell?_write hk]
    by_cases hv : k.var = l.var
    · rcases k with ⟨v, a⟩
      rcases l with ⟨w, b⟩
      obtain rfl : v = w := hv
      cases a <;> cases b <;> simp
    · have hi : k.var.index ≠ l.var.index := fun e => hv (Var.ext_index e)
      simp [hv, hi]
  · have hv : k.var ≠ l.var := fun e => hk (e ▸ hl)
    simp [write, hk, hv]

end TruthTable
end DpllSat
