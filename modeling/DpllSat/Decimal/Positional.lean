import DpllSat.Decimal.Shortest

/-! The text of a floating-point number: the shortest digits that read back, always
written out positionally, with a point only before a fraction. -/
namespace DpllSat
namespace Decimal

def positional (x : Scaled) : List Char :=
  let ds := Nat.toDigits 10 x.digits
  match x.exponent with
  | .ofNat e => ds ++ List.replicate e '0'
  | .negSucc k =>
    let places := k + 1
    if places < ds.length then
      ds.take (ds.length - places) ++ '.' :: ds.drop (ds.length - places)
    else '0' :: '.' :: (List.replicate (places - ds.length) '0' ++ ds)

def fieldsText (negative : Bool) (exponent fraction : Nat) : List Char :=
  let sign := if negative then ['-'] else []
  if exponent = 2047 then
    if fraction = 0 then sign ++ ['i', 'n', 'f'] else ['N', 'a', 'N']
  else if exponent = 0 ∧ fraction = 0 then sign ++ ['0']
  else if exponent = 0 then sign ++ positional (shortest ⟨fraction, 0⟩)
  else sign ++ positional (shortest ⟨fraction + leastMantissa, exponent - 1⟩)

/-- The sign is the top bit, the exponent the next eleven and the fraction the rest. -/
def text (x : Float) : String :=
  let bits := x.toBits.toNat
  let (upper, fraction) := (bits / leastMantissa, bits % leastMantissa)
  String.ofList (fieldsText (decide (2048 ≤ upper)) (upper % 2048) fraction)

end Decimal
end DpllSat
