import DpllSat.Random.Source
import DpllSat.Random.Stream
import Std.Data.HashSet

/-! Uniform samples of distinct indices, in no particular order. Which of three methods
draws a sample depends on the numbers alone, so a sample is a function of the stream. -/
namespace DpllSat
namespace Random

/-- A sample from ranges that grow to all indices. The `i` largest indices are still to come;
each of them brings in a random index that is not larger or, if that one is taken, joins
itself. -/
def growing {n : Nat} : (i : Nat) → i ≤ n → List (Fin n) → Stream → List (Fin n) × Stream
  | 0, _, chosen, s => (chosen, s)
  | i + 1, h, chosen, s =>
    let top : Fin n := ⟨n - (i + 1), by omega⟩
    let (t, s) := s.below (top + 1) (by omega)
    let drawn : Fin n := ⟨t, by omega⟩
    growing i (by omega) ((if chosen.contains drawn then top else drawn) :: chosen) s

def shuffle {n : Nat} : (r i : Nat) → i + r ≤ n → Vector (Fin n) n → Stream →
    Vector (Fin n) n × Stream
  | 0, _, _, v, s => (v, s)
  | r + 1, i, h, v, s =>
    let (t, s) := s.below (n - i) (by omega)
    shuffle r (i + 1) (by omega) (v.swap i (i + t) (by omega) (by omega)) s

def threshold (n : Nat) : Nat := (4294967296 - n) % n

def reject {n : Nat} (hn : 0 < n) (k : Nat) (s : Stream) : Std.HashSet (Fin n) × Stream := Id.run do
  let mut taken := ∅
  let mut s := s
  while taken.size < k do
    let drawn := s.word
    s := drawn.2
    if threshold n ≤ drawn.1.toNat * n % 4294967296 then
      taken := taken.insert
        ⟨Stream.scale n drawn.1.toNat 0, Stream.scale_lt hn drawn.1.toNat_lt (by decide)⟩
  return (taken, s)

inductive Method
  | growing | inPlace | rejection
  deriving DecidableEq

def isLarge (n : Nat) : Bool := 500000 ≤ n

/-- The method to sample `k` of `n` indices, by estimates of their running time in single
precision. -/
def Method.choose (n k : Nat) : Method :=
  let population := Float32.ofNat n
  let amount := Float32.ofNat k
  if k < 163 then
    let slope : Float32 := if isLarge n then 8.0 / 45.0 else 1.6
    let offset : Float32 := if isLarge n then 70.0 / 9.0 else 10.0
    if 11 < k && population < (offset + slope * amount) * amount then .inPlace else .growing
  else
    let factor : Float32 := if isLarge n then 330.0 / 9.0 else 270.0
    if population < factor * amount then .inPlace else .rejection

def sample {n k : Nat} (hk : 0 < k) (hn : k ≤ n) (s : Stream) : List (Fin n) × Stream :=
  match Method.choose n k with
  | .growing => growing k hn [] s
  | .inPlace =>
    let (v, s) := shuffle k 0 (by omega) (Vector.ofFn id) s
    ((v.take k).toList, s)
  | .rejection =>
    let (taken, s) := reject (by omega) k s
    (taken.toList, s)

def chacha : Source Stream where
  ofSeed := .ofSeed
  bool := Stream.bool
  below hn := Stream.below _ hn
  sample := sample

end Random
end DpllSat
