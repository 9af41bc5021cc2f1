/-! Texts and their bytes. Bytes that are no text can be shown all the same, with a replacement
character for every part that does not belong to one. -/
namespace DpllSat
namespace Text

def encode (cs : List Char) : List UInt8 := cs.flatMap String.utf8EncodeChar

def decode? (bytes : List UInt8) : Option (List Char) :=
  (String.fromUTF8? ⟨bytes.toArray⟩).map String.toList

def replacement : Char := '\ufffd'

/-- Whether a byte can come next in a character that begins with some bytes and is not complete. -/
def mayFollow : List UInt8 → UInt8 → Bool
  | [], _ => true
  | [a], b =>
    let low : UInt8 := if a = 0xE0 then 0xA0 else if a = 0xF0 then 0x90 else 0x80
    let high : UInt8 := if a = 0xED then 0x9F else if a = 0xF4 then 0x8F else 0xBF
    decide (0xC2 ≤ a ∧ a ≤ 0xF4) && decide (low ≤ b ∧ b ≤ high)
  | _, b => decide (0x80 ≤ b ∧ b ≤ 0xBF)

/-- What is shown for some bytes, after those of a character that is not complete. -/
def lossyFrom : List UInt8 → List UInt8 → List Char
  | pending, [] => if pending.isEmpty then [] else [replacement]
  | pending, b :: bytes =>
    let next := if mayFollow pending b then pending ++ [b] else [b]
    let broken := if mayFollow pending b then [] else [replacement]
    broken ++ match decode? next with
      | some cs => cs ++ lossyFrom [] bytes
      | none => lossyFrom next bytes

def lossy (bytes : List UInt8) : List Char := lossyFrom [] bytes

end Text
end DpllSat
