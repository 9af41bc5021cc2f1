/-! Floating-point numbers from text: an optional sign, then `inf`, `infinity` or `nan` in
any case, or decimal digits with an optional point and an optional exponent. At least one
digit stands beside the point, and nothing may surround the number. -/
namespace DpllSat
namespace Decimal

def splitSign : List Char → Bool × List Char
  | '-' :: cs => (true, cs)
  | '+' :: cs => (false, cs)
  | cs => (false, cs)

def exponent? : List Char → Option Int
  | [] => some 0
  | e :: cs =>
    if e = 'e' ∨ e = 'E' then
      let (negative, ds) := splitSign cs
      if ds.isEmpty || !ds.all Char.isDigit then none
      else
        let n := Nat.ofDigitChars 10 ds 0
        some (if negative then -n else n)
    else none

/-- A number above `10 ^ 400` is infinite and one below `10 ^ (-400)` is zero, so that no
exponent in a text asks for a huge power. -/
def ofScaled (digits : Nat) (exponent : Int) : Float :=
  let magnitude := (Nat.toDigits 10 digits).length + exponent
  if digits = 0 ∨ magnitude < -400 then 0.0
  else if 400 < magnitude then 1.0 / 0.0
  else if exponent < 0 then Float.ofScientific digits true exponent.natAbs
  else Float.ofScientific digits false exponent.natAbs

def decimal? (cs : List Char) : Option Float :=
  let whole := cs.takeWhile Char.isDigit
  let rest := cs.dropWhile Char.isDigit
  let (fraction, tail) := match rest with
    | '.' :: ds => (ds.takeWhile Char.isDigit, ds.dropWhile Char.isDigit)
    | _ => ([], rest)
  if whole.isEmpty && fraction.isEmpty then none
  else (exponent? tail).map fun e =>
    ofScaled (Nat.ofDigitChars 10 (whole ++ fraction) 0) (e - fraction.length)

def float? (text : String) : Option Float :=
  let (negative, cs) := splitSign text.toList
  let size := match String.ofList (cs.map Char.toLower) with
    | "inf" | "infinity" => some (1.0 / 0.0)
    | "nan" => some (0.0 / 0.0)
    | _ => decimal? cs
  size.map fun x => if negative then -x else x

end Decimal
end DpllSat
