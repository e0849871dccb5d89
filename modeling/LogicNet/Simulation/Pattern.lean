import LogicNet.Fault
import LogicNet.Random

/-!
# Patterns

A pattern gives a value to each input. Sixty-four patterns are tried at once: each input has a
word, and lane `p` of the words is pattern number `p`.

The first six inputs count through the lanes of one word, with a fixed word each; the others are
constant within a word and count through the words. So the words and lanes together go through all
assignments exactly once. With fewer than six inputs the single word repeats them.
-/

namespace LogicNet

/-- All lanes set. -/
def allLanes : Word := 0xFFFFFFFFFFFFFFFF

/-- The same value in all lanes. -/
def spread (b : Bool) : Word := if b then allLanes else 0

/-- The words through which the first six inputs count the lanes. -/
def laneWords : List Word :=
  [0xAAAAAAAAAAAAAAAA, 0xCCCCCCCCCCCCCCCC, 0xF0F0F0F0F0F0F0F0,
    0xFF00FF00FF00FF00, 0xFFFF0000FFFF0000, 0xFFFFFFFF00000000]

/-- The value of lane `p < 64`. -/
def lane (w : Word) (p : Nat) : Bool := w.toNat.testBit p

/-- The value of a lane, which must be one of the sixty-four. -/
def laneOrBreach (w : Word) (p : Nat) : Result Bool :=
  if p < 64 then .ok (lane w p) else .error (.breach .overflow)

/-- The number of words that hold all assignments of `inputs` inputs. -/
def wordCount (inputs : Nat) : Nat := 1 <<< (inputs - 6)

/-- The word of input `i` in word number `w`. -/
def patternWord (w i : Nat) : Word :=
  if i < 6 then laneWords.getD i 0 else spread (w.testBit (i - 6))

/-- The bytes of a word. -/
def wordBytes : Nat := 8

/-- The bytes that refer to a list of words. -/
def rowBytes : Nat := 24

/-- All assignments of `inputs` inputs, as one list of input words for each word number. The number
of words has to be a 64-bit number itself, and there has to be room for the lists. -/
def exhaustivePatterns (inputs : Nat) : Result (List (List Word)) := do
  Result.require (inputs < 70) .overflow
  Result.requireRoom (wordCount inputs) rowBytes
  return (List.range (wordCount inputs)).map fun w => (List.range inputs).map (patternWord w)

/-- Words drawn from a source, `inputs` for each of `words` lists. -/
def drawPatterns {σ : Type} [WordSource σ] (inputs : Nat) : Nat → σ → List (List Word)
  | 0, _ => []
  | words + 1, s =>
    let (row, s) := drawWords inputs s
    row :: drawPatterns inputs words s

/-- Words drawn from a source, if there is room for the lists, and for their words if there is a
list. -/
def patternsFrom {σ : Type} [WordSource σ] (inputs words : Nat) (s : σ) :
    Result (List (List Word)) := do
  Result.requireRoom words rowBytes
  Result.requireRoom (if words = 0 then 0 else inputs) wordBytes
  return drawPatterns inputs words s

/-- Random words, grown from a seed. -/
def randomPatterns (inputs words : Nat) (seed : Word) : Result (List (List Word)) :=
  patternsFrom inputs words (Xoshiro.ofSeed seed)

end LogicNet
