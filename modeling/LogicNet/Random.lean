/-!
# Random words

A generator is a state and a step that gives a 64-bit word; `WordSource` is that and nothing more,
so what is built from random words can be studied for any stream of words whatsoever.

`Xoshiro` is the generator in use, xoshiro256++. It is seeded from one word by a permuted
congruential generator that gives eight half words.

A number below a bound is drawn by WIDENING: the word is multiplied by the bound, the upper half of
the product is the number, and the draw is repeated while the lower half lies beyond the largest
multiple that keeps all numbers equally likely. A repeated draw has no bound of its own, so
`drawBelow` takes the number of tries allowed; a try fails with probability at most one half.
-/

namespace LogicNet

/-- Sixty-four bits: one bit for each of sixty-four patterns, or a random draw. -/
abbrev Word := UInt64

/-- A state that gives a word and the next state. -/
class WordSource (σ : Type) where
  next : σ → Word × σ

/-! ## The generator -/

/-- The state of xoshiro256++. -/
structure Xoshiro where
  s0 : Word
  s1 : Word
  s2 : Word
  s3 : Word
deriving DecidableEq, Repr

/-- Rotate a word to the left by `k` places, `0 < k < 64`. -/
def rotateLeft (x : Word) (k : Word) : Word := (x <<< k) ||| (x >>> (64 - k))

/-- Rotate a half word to the right; a rotation by zero changes nothing. -/
def rotateRightHalf (x : UInt32) (k : UInt32) : UInt32 :=
  if k = 0 then x else (x >>> k) ||| (x <<< (32 - k))

namespace Xoshiro

def step (g : Xoshiro) : Word × Xoshiro :=
  let result := rotateLeft (g.s0 + g.s3) 23 + g.s0
  let s2 := g.s2 ^^^ g.s0
  let s3 := g.s3 ^^^ g.s1
  (result,
    { s0 := g.s0 ^^^ s3
      s1 := g.s1 ^^^ s2
      s2 := s2 ^^^ (g.s1 <<< 17)
      s3 := rotateLeft s3 45 })

/-- One step of the seeding generator: its next state and a half word. -/
def seedStep (state : Word) : Word × UInt32 :=
  let state := state * 6364136223846793005 + 11634580027462260723
  let x := (((state >>> 18) ^^^ state) >>> 27).toUInt32
  (state, rotateRightHalf x (state >>> 59).toUInt32)

/-- The next `n` words of the seeding generator, each put together from two half words. -/
def seedWords : Nat → Word → List Word
  | 0, _ => []
  | n + 1, state =>
    let (state, low) := seedStep state
    let (state, high) := seedStep state
    (low.toUInt64 ||| (high.toUInt64 <<< 32)) :: seedWords n state

/-- The state grown from one word. -/
def ofSeed (seed : Word) : Xoshiro :=
  let words := seedWords 4 seed
  { s0 := words.getD 0 0, s1 := words.getD 1 0, s2 := words.getD 2 0, s3 := words.getD 3 0 }

end Xoshiro

instance : WordSource Xoshiro := ⟨Xoshiro.step⟩

/-! ## Draws -/

variable {σ : Type} [WordSource σ]

/-- The next `n` words. -/
def drawWords : Nat → σ → List Word × σ
  | 0, s => ([], s)
  | n + 1, s =>
    let (w, s) := WordSource.next s
    let (ws, s) := drawWords n s
    (w :: ws, s)

/-- The largest lower half that is accepted for a bound `0 < bound < 2 ^ 64`. -/
def acceptedBelow (bound : Nat) : Nat := bound <<< (63 - bound.log2) - 1

/-- A number below `bound`, in at most `tries` draws. -/
def drawBelow (bound : Nat) : Nat → σ → Option (Nat × σ)
  | 0, _ => none
  | tries + 1, s =>
    let (w, s) := WordSource.next s
    let product := w.toNat * bound
    if product % (1 <<< 64) ≤ acceptedBelow bound then some (product >>> 64, s)
    else drawBelow bound tries s

/-- How often a single draw may be repeated. -/
def triesPerDraw : Nat := 256

/-- Elements of a list, each drawn independently. -/
def drawFrom {α : Type} (tries : Nat) (xs : List α) : Nat → σ → Option (List α × σ)
  | 0, s => some ([], s)
  | n + 1, s => do
    let (i, s) ← drawBelow xs.length tries s
    let x ← xs[i]?
    let (rest, s) ← drawFrom tries xs n s
    return (x :: rest, s)

end LogicNet
