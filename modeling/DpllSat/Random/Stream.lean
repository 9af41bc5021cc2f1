/-! A reproducible stream of 32-bit words: the ChaCha block function with eight rounds, its
key expanded from a 64-bit seed, and uniform draws below a bound. -/
namespace DpllSat
namespace Random

abbrev Block := Vector UInt32 16

def rotateLeft (x n : UInt32) : UInt32 := (x <<< n) ||| (x >>> (32 - n))

def rotateRight (x n : UInt32) : UInt32 := (x >>> n) ||| (x <<< (32 - n))

def quarterRound (b : Block) (i j k l : Fin 16) : Block :=
  let b := b.set i (b[i] + b[j])
  let b := b.set l (rotateLeft (b[l] ^^^ b[i]) 16)
  let b := b.set k (b[k] + b[l])
  let b := b.set j (rotateLeft (b[j] ^^^ b[k]) 12)
  let b := b.set i (b[i] + b[j])
  let b := b.set l (rotateLeft (b[l] ^^^ b[i]) 8)
  let b := b.set k (b[k] + b[l])
  b.set j (rotateLeft (b[j] ^^^ b[k]) 7)

def doubleRound (b : Block) : Block :=
  let b := quarterRound b 0 4 8 12
  let b := quarterRound b 1 5 9 13
  let b := quarterRound b 2 6 10 14
  let b := quarterRound b 3 7 11 15
  let b := quarterRound b 0 5 10 15
  let b := quarterRound b 1 6 11 12
  let b := quarterRound b 2 7 8 13
  quarterRound b 3 4 9 14

abbrev Key := Vector UInt32 8

/-- The key of a seed: eight outputs of a permuted congruential generator. -/
def Key.ofSeed (seed : UInt64) : Key :=
  let next (s : UInt64) : UInt64 := s * 6364136223846793005 + 11634580027462260723
  let output (s : UInt64) : UInt32 :=
    rotateRight ((((s >>> 18) ^^^ s) >>> 27).toUInt32) (s >>> 59).toUInt32
  let s1 := next seed
  let s2 := next s1
  let s3 := next s2
  let s4 := next s3
  let s5 := next s4
  let s6 := next s5
  let s7 := next s6
  let s8 := next s7
  #v[output s1, output s2, output s3, output s4, output s5, output s6, output s7, output s8]

def Key.block (key : Key) (n : UInt64) : Block :=
  let b : Block := #v[0x61707865, 0x3320646e, 0x79622d32, 0x6b206574,
    key[0], key[1], key[2], key[3], key[4], key[5], key[6], key[7],
    n.toUInt32, (n >>> 32).toUInt32, 0, 0]
  let c := doubleRound (doubleRound (doubleRound (doubleRound b)))
  b.zipWith (· + ·) c

/-- A place in the stream: the words left of the current block and the number of the next. -/
structure Stream where
  key : Key
  next : UInt64
  pending : List UInt32

namespace Stream

def ofSeed (seed : UInt64) : Stream := ⟨.ofSeed seed, 0, []⟩

def word (s : Stream) : UInt32 × Stream :=
  match s.pending with
  | w :: ws => (w, { s with pending := ws })
  | [] =>
    let b := s.key.block s.next
    (b[0], ⟨s.key, s.next + 1, b.toList.tail⟩)

def bool (s : Stream) : Bool × Stream :=
  let (w, s) := s.word
  (decide (2147483648 ≤ w.toNat), s)

/-- The first of two words as a fraction of `n`. The second one refines it where the
remainder is so large that it could carry. -/
def scale (n w v : Nat) : Nat :=
  if 4294967296 - n < w * n % 4294967296
      ∧ 4294967296 ≤ w * n % 4294967296 + v * n / 4294967296
  then w * n / 4294967296 + 1
  else w * n / 4294967296

theorem scale_lt {n w v : Nat} (hn : 0 < n) (hw : w < 4294967296) (hv : v < 4294967296) :
    scale n w v < n := by
  have h1 : w * n ≤ 4294967295 * n := Nat.mul_le_mul_right n (by omega)
  have h2 : v * n ≤ 4294967295 * n := Nat.mul_le_mul_right n (by omega)
  unfold scale
  generalize w * n = p at h1 ⊢
  generalize v * n = q at h2 ⊢
  split <;> omega

/-- A number below `n`. The second word is drawn only where it can matter. -/
def below (n : Nat) (hn : 0 < n) (s : Stream) : Fin n × Stream :=
  let (w, s) := s.word
  if 4294967296 - n < w.toNat * n % 4294967296 then
    let (v, s) := s.word
    (⟨scale n w.toNat v.toNat, scale_lt hn w.toNat_lt v.toNat_lt⟩, s)
  else (⟨scale n w.toNat 0, scale_lt hn w.toNat_lt (by decide)⟩, s)

end Stream
end Random
end DpllSat
