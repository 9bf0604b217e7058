/-!
A stream of random words that a seed determines: the ChaCha block function with
twelve rounds, applied to a key that is expanded from the seed and to a counter
of blocks.
-/

namespace CpuScheduling.Random

abbrev Block := Vector UInt32 16

def rotateLeft (word : UInt32) (bits : UInt32) : UInt32 :=
  (word <<< bits) ||| (word >>> (32 - bits))

/-- Add the second word to the first, and rotate the third word, combined with the
sum, to the left. -/
def mix (sum addend turned : Fin 16) (bits : UInt32) (block : Block) : Block :=
  let block := block.set sum (block[sum] + block[addend])
  block.set turned (rotateLeft (block[turned] ^^^ block[sum]) bits)

def quarterRound (a b c d : Fin 16) (block : Block) : Block :=
  block |> mix a b d 16 |> mix c d b 12 |> mix a b d 8 |> mix c d b 7

def doubleRound (block : Block) : Block :=
  block
    |> quarterRound 0 4 8 12 |> quarterRound 1 5 9 13
    |> quarterRound 2 6 10 14 |> quarterRound 3 7 11 15
    |> quarterRound 0 5 10 15 |> quarterRound 1 6 11 12
    |> quarterRound 2 7 8 13 |> quarterRound 3 4 9 14

def scramble (block : Block) : Block :=
  Vector.zipWith (· + ·) (Nat.repeat doubleRound 6 block) block

def constants : Vector UInt32 4 :=
  #v[0x61707865, 0x3320646E, 0x79622D32, 0x6B206574]

/-- The words of the block of a counter under a key; the counter has its low word
first. -/
def keyed (key : Vector UInt32 8) (counter : UInt64) : Block :=
  constants ++ key ++ (#v[counter.toUInt32, (counter >>> 32).toUInt32, 0, 0] : Vector UInt32 4)

def expand (state : UInt64) : UInt64 :=
  state * 6364136223846793005 + 11634580027462260723

def keyWord (state : UInt64) : UInt32 :=
  let word := (((state >>> 18) ^^^ state) >>> 27).toUInt32
  let turn := (state >>> 59).toUInt32
  (word >>> turn) ||| (word <<< (32 - turn))

/-- The key that a seed is expanded to. -/
def expandKey (seed : UInt64) : Vector UInt32 8 :=
  Vector.ofFn fun index => keyWord (Nat.repeat expand (index.val + 1) seed)

/-- What fractions and numbers up to a limit are drawn from. -/
structure Generator (State : Type) where
  fraction : State → Float × State
  upTo : UInt32 → State → UInt32 × State
  upTo_le : ∀ limit state, (upTo limit state).1 ≤ limit

structure Stream where
  key : Vector UInt32 8
  counter : UInt64
  waiting : List UInt32
  deriving DecidableEq

namespace Stream

def ofSeed (seed : UInt64) : Stream where
  key := expandKey seed
  counter := 0
  waiting := []

def word (stream : Stream) : UInt32 × Stream :=
  match stream.waiting with
  | word :: rest => (word, { stream with waiting := rest })
  | [] =>
      let block := scramble (keyed stream.key stream.counter)
      (block[0], {
        stream with
          counter := stream.counter + 1
          waiting := block.toList.tail })

def doubleWord (stream : Stream) : UInt64 × Stream :=
  let (low, stream) := stream.word
  let (high, stream) := stream.word
  (high.toUInt64 <<< 32 ||| low.toUInt64, stream)

/-- Draw a double from zero up to one, in steps of `2 ^ -53`. -/
def fraction (stream : Stream) : Float × Stream :=
  let (bits, stream) := stream.doubleWord
  ((bits >>> 11).toFloat / 9007199254740992.0, stream)

/-- Draw a number that is at most `limit`.  The product of a word with the number
of values has the result above the point; a second word is drawn where what is
below the point may still carry. -/
def upTo (limit : UInt32) (stream : Stream) : UInt32 × Stream :=
  let size := limit.toNat + 1
  let (first, stream) := stream.word
  if size = UInt32.size then (first, stream)
  else
    let product := first.toNat * size
    let whole := product / UInt32.size
    let part := product % UInt32.size
    if UInt32.size - size < part then
      let (second, stream) := stream.word
      let carry := (part + second.toNat * size / UInt32.size) / UInt32.size
      (UInt32.ofNat (whole + carry), stream)
    else (UInt32.ofNat whole, stream)

theorem scaled_lt {first second words size : Nat} (firstWord : first < words)
    (secondWord : second < words) (positive : 0 < size) :
    first * size / words + (first * size % words + second * size / words) / words < size := by
  have ofWords : 0 < words := Nat.zero_lt_of_lt firstWord
  have below : second * size / words < size :=
    Nat.div_lt_of_lt_mul (Nat.mul_lt_mul_of_pos_right secondWord positive)
  have product : (first + 1) * size ≤ words * size := Nat.mul_le_mul_right size firstWord
  rw [← Nat.mul_add_div ofWords, ← Nat.add_assoc, Nat.div_add_mod]
  apply Nat.div_lt_of_lt_mul
  rw [Nat.add_mul, Nat.one_mul] at product
  omega

theorem ofNat_le {value : Nat} {limit : UInt32} (small : value < limit.toNat + 1) :
    UInt32.ofNat value ≤ limit := by
  rw [UInt32.le_iff_toNat_le, UInt32.toNat_ofNat_of_lt']
  · exact Nat.le_of_lt_succ small
  · exact Nat.lt_of_lt_of_le small limit.toNat_lt

theorem upTo_le (limit : UInt32) (stream : Stream) : (stream.upTo limit).1 ≤ limit := by
  have scaled (second : UInt32) :=
    scaled_lt stream.word.1.toNat_lt second.toNat_lt limit.toNat.succ_pos
  simp only [upTo]
  split
  next full =>
    have inWord := Nat.lt_of_lt_of_eq stream.word.1.toNat_lt full.symm
    exact UInt32.le_iff_toNat_le.mpr (Nat.le_of_lt_succ inWord)
  next =>
    split
    next => exact ofNat_le (scaled _)
    next => exact ofNat_le (Nat.lt_of_le_of_lt (Nat.le_add_right _ _) (scaled 0))

def generator : Generator Stream where
  fraction := fraction
  upTo := upTo
  upTo_le := upTo_le

end Stream

end CpuScheduling.Random
