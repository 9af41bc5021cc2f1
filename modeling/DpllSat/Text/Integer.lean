/-! Bounded decimal integers from text. A sign may stand in front of at least one digit;
leading zeros are allowed, and a value out of range is no integer. -/
namespace DpllSat
namespace Text

def digits? (cs : List Char) : Option Nat :=
  if cs.isEmpty || !cs.all Char.isDigit then none else some (Nat.ofDigitChars 10 cs 0)

@[simp] theorem digits?_toDigits (n : Nat) : digits? (Nat.toDigits 10 n) = some n := by
  have h1 : (Nat.toDigits 10 n).isEmpty = false := by
    simp [List.isEmpty_eq_false_iff, Nat.toDigits_ne_nil]
  have h2 : (Nat.toDigits 10 n).all Char.isDigit = true :=
    List.all_eq_true.2 fun c hc => Nat.isDigit_of_mem_toDigits (by decide) (by decide) hc
  rw [digits?, h1, h2]
  simp [Nat.ofDigitChars_toDigits]

def unsigned? (bound : Nat) (cs : List Char) : Option Nat :=
  (digits? (match cs with | '+' :: ds => ds | _ => cs)).filter (· ≤ bound)

/-- An integer from `-bound - 1` to `bound`, with an optional sign. -/
def signed? (bound : Nat) (cs : List Char) : Option Int :=
  match cs with
  | '-' :: ds => ((digits? ds).filter (· ≤ bound + 1)).map fun n => -(n : Int)
  | '+' :: ds => ((digits? ds).filter (· ≤ bound)).map fun n => (n : Int)
  | _ => ((digits? cs).filter (· ≤ bound)).map fun n => (n : Int)

def maxUnsigned32 : Nat := 4294967295

def maxUnsigned64 : Nat := 18446744073709551615

def maxSigned64 : Nat := 9223372036854775807

end Text
end DpllSat
