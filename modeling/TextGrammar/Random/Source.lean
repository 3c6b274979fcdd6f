/-!
# TextGrammar.Random — where the indices of choices come from

A source is asked for an index below a bound and may answer with any number.  It is a seeded generator,
or it answers by a rule from all bounds asked of it so far.

A generator is a key, made from a seed, and the count of the numbers taken so far.  Number `n` is read off
block `n / 8` of the ChaCha stream cipher, so the stream of a seed is a function of the position.  A block
is sixteen words, mixed by twelve rounds, six over the columns and six over the diagonals in turn, and
added to themselves.  An index below a bound is the high half of a product; numbers that would favour some
indices are skipped.
-/

namespace TextGrammar

namespace ChaCha

abbrev Key := Vector UInt32 8

abbrev Block := Vector UInt32 16

def rotateLeft (x : UInt32) (n : UInt32) : UInt32 := (x <<< n) ||| (x >>> (32 - n))

/-- Mix four words of a block. -/
def quarterRound (a b c d : Fin 16) (s : Block) : Block :=
  let s := s.set a (s[a] + s[b])
  let s := s.set d (rotateLeft (s[d] ^^^ s[a]) 16)
  let s := s.set c (s[c] + s[d])
  let s := s.set b (rotateLeft (s[b] ^^^ s[c]) 12)
  let s := s.set a (s[a] + s[b])
  let s := s.set d (rotateLeft (s[d] ^^^ s[a]) 8)
  let s := s.set c (s[c] + s[d])
  s.set b (rotateLeft (s[b] ^^^ s[c]) 7)

/-- One round over the columns and one over the diagonals. -/
def doubleRound (s : Block) : Block :=
  s |> quarterRound 0 4 8 12 |> quarterRound 1 5 9 13 |> quarterRound 2 6 10 14
    |> quarterRound 3 7 11 15 |> quarterRound 0 5 10 15 |> quarterRound 1 6 11 12
    |> quarterRound 2 7 8 13 |> quarterRound 3 4 9 14

/-- A block before it is mixed: the constants, the key, the number of the block with its low half
first, and two zero words. -/
def start (key : Key) (number : UInt64) : Block :=
  #v[0x61707865, 0x3320646e, 0x79622d32, 0x6b206574, key[0], key[1], key[2], key[3], key[4], key[5],
    key[6], key[7], number.toUInt32, (number >>> 32).toUInt32, 0, 0]

def block (key : Key) (number : UInt64) : Block :=
  let s := start key number
  s.zipWith (· + ·) (Nat.repeat doubleRound 6 s)

end ChaCha

/-- A seeded generator of 64-bit numbers. -/
structure Generator where
  key : ChaCha.Key
  /-- How many numbers have been taken. -/
  taken : Nat

namespace Generator

/-! ### Seeds -/

/-- The next state of the generator that stretches a seed to a key. -/
def advance (state : UInt64) : UInt64 := state * 6364136223846793005 + 11634580027462260723

/-- The word that a state gives: its high bits folded and turned by the top five bits. -/
def fold (state : UInt64) : UInt32 :=
  let x := (((state >>> 18) ^^^ state) >>> 27).toUInt32
  let turn := (state >>> 59).toUInt32
  (x >>> turn) ||| (x <<< (32 - turn))

/-- The state behind `n` steps from a seed. -/
def stateAt (seed : UInt64) (n : Nat) : UInt64 := Nat.repeat advance n seed

def ofSeed (seed : UInt64) : Generator where
  key := Vector.ofFn fun i => fold (stateAt seed (i.val + 1))
  taken := 0

/-! ### Numbers -/

/-- The number at a position of the stream, its low word first. -/
def number (key : ChaCha.Key) (n : Nat) : Nat :=
  let block := ChaCha.block key (UInt64.ofNat (n / 8))
  let low := block.get ⟨2 * (n % 8), by omega⟩
  let high := block.get ⟨2 * (n % 8) + 1, by omega⟩
  low.toNat + UInt32.size * high.toNat

/-! ### Indices below a bound -/

/-- The largest low half that is accepted: the bound moved up to the top bit, less one. -/
def zone (bound : Nat) : Nat := bound * Nat.pow 2 (63 - bound.log2) - 1

/-- The number is accepted for the bound. -/
def accepts (bound v : Nat) : Bool := v * bound % UInt64.size ≤ zone bound

/-- The index that an accepted number stands for. -/
def index (bound v : Nat) : Nat := v * bound / UInt64.size

/-- Search `tries` positions from `n` on for an accepted number; its index, and the position behind
it. -/
def seek (key : ChaCha.Key) (bound : Nat) : (tries n : Nat) → Option (Nat × Nat)
  | 0, _ => none
  | tries + 1, n =>
    if accepts bound (number key n) then some (index bound (number key n), n + 1)
    else seek key bound tries (n + 1)

/-- The stream repeats after this many numbers: each number of a block gives a block of eight. -/
def period : Nat := 8 * UInt64.size

/-- An index below a bound; `none` when no number of the whole stream is accepted. -/
def below? (g : Generator) (bound : Nat) : Option (Nat × Generator) :=
  (seek g.key bound period g.taken).map fun (i, n) => (i, { g with taken := n })

end Generator

/-! ### Sources of indices -/

/-- A source of indices. -/
inductive Source where
  /-- The indices of a seeded generator. -/
  | seeded (g : Generator)
  /-- Answers by a rule from the bounds asked so far, the latest first. -/
  | ruled (answer : List Nat → Nat) (asked : List Nat)

namespace Source

def ofSeed (seed : UInt64) : Source := seeded (Generator.ofSeed seed)

/-- A source that has not been asked yet and answers by a rule. -/
def ofRule (answer : List Nat → Nat) : Source := ruled answer []

def fixed (n : Nat) : Source := ofRule fun _ => n

/-- Always the last index below the bound. -/
def last : Source := ofRule fun asked => asked.headD 0 - 1

/-- The numbers of a table in turn, then zero. -/
def table (ns : List Nat) : Source := ofRule fun asked => ns.getD (asked.length - 1) 0

/-- The numbers of a table in turn, over and over. -/
def cycle (ns : List Nat) : Source :=
  ofRule fun asked => ns.getD ((asked.length - 1) % ns.length) 0

/-- Ask for an index below a bound: the answer, and the source after it. -/
def ask (bound : Nat) : Source → Nat × Source
  | seeded g =>
    match g.below? bound with
    | some (i, g) => (i, seeded g)
    | none => (0, seeded g)
  | ruled answer asked => (answer (bound :: asked), ruled answer (bound :: asked))

end Source

end TextGrammar
