import DpllSat.Literal
import Std.Data.HashMap

/-! Partial truth assignments read off a list of literals. A later literal of a
variable overrides the earlier ones, so any list has a meaning. -/
namespace DpllSat

abbrev Valuation := Std.HashMap Var Bool

namespace Valuation

def ofLits (ls : List Lit) : Valuation :=
  ls.foldl (fun t l => t.insert l.var l.positive) ∅

def holds (t : Valuation) (l : Lit) : Bool := t[l.var]? == some l.positive

theorem getElem?_foldl_insert (t : Valuation) (ls : List Lit) (v : Var) :
    (ls.foldl (fun t l => t.insert l.var l.positive) t)[v]? =
      (((ls.reverse.find? fun l => l.var == v).map Lit.positive).or t[v]?) := by
  induction ls generalizing t with
  | nil => simp
  | cons l ls ih =>
    rw [List.foldl_cons, ih, Std.HashMap.getElem?_insert, List.reverse_cons, List.find?_append]
    cases ls.reverse.find? fun l => l.var == v with
    | some k => simp
    | none => by_cases h : l.var = v <;> simp [h]

/-- The last literal of a variable decides its value. -/
theorem getElem?_ofLits (ls : List Lit) (v : Var) :
    (ofLits ls)[v]? = (ls.reverse.find? fun l => l.var == v).map Lit.positive := by
  simp [ofLits, getElem?_foldl_insert]

/-- The model over the variables `1, …, n` that agrees with the literals `ls` and
makes every other variable true. -/
def complete (n : Nat) (ls : List Lit) : List Lit :=
  let t := ofLits ls
  (List.range n).filterMap fun i => (Var.of? (i + 1)).map fun v => ⟨v, t[v]?.getD true⟩

end Valuation
end DpllSat
