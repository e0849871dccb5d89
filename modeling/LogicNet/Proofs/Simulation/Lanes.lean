import Mathlib.Data.List.Basic
import LogicNet.Simulation.Basic
import LogicNet.Proofs.Valuation

/-!
# Lanes

A word is sixty-four patterns side by side. **The law** (`lane_evalWord`): a function of words is the
function of bits in each lane, so a simulation on words is sixty-four independent ones.

The words of the inputs go through all patterns (`exists_pattern`): a pattern is a word number and a
lane, which are its high and its low bits.
-/

namespace LogicNet

/-! ## Operators -/

section Operators

variable {a b : Word} {p : Nat}

theorem lane_eq_getLsbD (w : Word) (p : Nat) : lane w p = w.toBitVec.getLsbD p := rfl

@[simp] theorem lane_and : lane (a &&& b) p = (lane a p && lane b p) := by
  simp [lane_eq_getLsbD]

@[simp] theorem lane_or : lane (a ||| b) p = (lane a p || lane b p) := by
  simp [lane_eq_getLsbD]

@[simp] theorem lane_xor : lane (a ^^^ b) p = (lane a p ^^ lane b p) := by
  simp [lane_eq_getLsbD]

theorem lane_not (lt : p < 64) : lane (~~~a) p = !lane a p := by
  simp [lane_eq_getLsbD, lt]

@[simp] theorem lane_zero : lane 0 p = false := by simp [lane]

theorem lane_allLanes (lt : p < 64) : lane allLanes p = true := by
  have : allLanes = ~~~(0 : Word) := by decide
  rw [this, lane_not lt, lane_zero]
  rfl

theorem lane_spread (lt : p < 64) (x : Bool) : lane (spread x) p = x := by
  cases x with
  | false => exact lane_zero
  | true => exact lane_allLanes lt

/-- Words that agree in all lanes are equal. -/
theorem word_ext (h : ∀ p < 64, lane a p = lane b p) : a = b :=
  UInt64.toBitVec_inj.mp (BitVec.eq_of_getLsbD_eq fun p lt => h p lt)

end Operators

/-! ## Functions of words -/

section Functions

variable {xs : List Word} {p : Nat}

theorem lane_andWords (lt : p < 64) : lane (andWords xs) p = (xs.map (lane · p)).all id := by
  have fold : ∀ a, lane (xs.foldl (· &&& ·) a) p = (lane a p && (xs.map (lane · p)).all id) := by
    induction xs with
    | nil => simp
    | cons x xs ih =>
      intro a
      simp [ih, Bool.and_assoc]
  rw [andWords, fold, lane_allLanes lt, Bool.true_and]

theorem lane_orWords : lane (orWords xs) p = (xs.map (lane · p)).any id := by
  have fold : ∀ a, lane (xs.foldl (· ||| ·) a) p = (lane a p || (xs.map (lane · p)).any id) := by
    induction xs with
    | nil => simp
    | cons x xs ih =>
      intro a
      simp [ih, Bool.or_assoc]
  rw [orWords, fold, lane_zero, Bool.false_or]

theorem lane_xorWords : lane (xorWords xs) p = (xs.map (lane · p)).foldl Bool.xor false := by
  have fold : ∀ a, lane (xs.foldl (· ^^^ ·) a) p = (xs.map (lane · p)).foldl Bool.xor (lane a p) := by
    induction xs with
    | nil => simp
    | cons x xs ih =>
      intro a
      simp [ih]
  rw [xorWords, fold, lane_zero]

theorem lane_selectWord {s a b : Word} (lt : p < 64) :
    lane (selectWord s a b) p = if lane s p then lane a p else lane b p := by
  rw [selectWord, lane_or, lane_and, lane_and, lane_not lt]
  cases lane s p <;> simp

theorem lane_shift {n : Nat} (hn : n < 64) (lt : p < 64) :
    lane ((1 : Word) <<< n.toUInt64) p = decide (p = n) := by
  have small : n.toUInt64.toNat = n := by
    simp
    omega
  rw [lane, UInt64.toNat_shiftLeft, small, Nat.mod_eq_of_lt hn, Nat.testBit_mod_two_pow, Nat.testBit_shiftLeft,
    UInt64.toNat_one, Bool.eq_iff_iff]
  simp only [lt, decide_true, Bool.true_and, Bool.and_eq_true, decide_eq_true_eq,
    Nat.testBit_one_eq_true_iff_self_eq_zero]
  omega

/-- Setting lanes one after the other sets those that were to be set. -/
theorem lane_foldl_set (c : Nat → Prop) [DecidablePred c] {n : Nat} (le : n ≤ 64) (a : Word) (lt : p < 64) :
    lane ((List.range n).foldl (fun acc q => if c q then acc ||| ((1 : Word) <<< q.toUInt64) else acc) a) p =
      (lane a p || (decide (p < n) && decide (c p))) := by
  induction n with
  | zero => simp
  | succ n ih =>
    rw [List.range_succ, List.foldl_append, List.foldl_cons, List.foldl_nil]
    have before := ih (by omega)
    by_cases set : c n
    · rw [if_pos set, lane_or, lane_shift (by omega) lt, before]
      by_cases here : p = n
      · subst here
        simp [set]
      · have : p < n + 1 ↔ p < n := by omega
        simp [here, this]
    · rw [if_neg set, before]
      by_cases here : p = n
      · subst here
        simp [set]
      · have : p < n + 1 ↔ p < n := by omega
        simp [this]

theorem lane_majorityWord (lt : p < 64) :
    lane (majorityWord xs) p = decide ((xs.map (lane · p)).length < 2 * (xs.map (lane · p)).count true) := by
  have count : xs.countP (lane · p) = (xs.map (lane · p)).count true := by
    rw [List.count_eq_countP, List.countP_map]
    congr 1
    funext x
    simp
  rw [majorityWord, lane_foldl_set (fun q => xs.length < 2 * xs.countP (lane · q)) (Nat.le_refl 64) 0 lt]
  simp [lt, ← count]

theorem lane_majority3 {a b c : Word} :
    lane (majority3 a b c) p = decide (3 < 2 * [lane a p, lane b p, lane c p].count true) := by
  rw [majority3, lane_or, lane_and, lane_and, lane_or]
  cases lane a p <;> cases lane b p <;> cases lane c p <;> rfl

/-- A function of words is the function of bits in each lane. -/
theorem lane_evalWord (fn : GateFn) (held : Word) (xs : List Word) (lt : p < 64) :
    lane (fn.evalWord held xs) p = fn.evalBit (lane held p) (xs.map (lane · p)) := by
  have read : ∀ i, lane (xs.getD i 0) p = (xs.map (lane · p)).getD i false := by
    intro i
    simp only [List.getD_eq_getElem?_getD, List.getElem?_map]
    cases xs[i]? <;> simp
  cases fn with
  | zero => exact lane_zero
  | one => exact lane_allLanes lt
  | buffer => exact read 0
  | output => exact read 0
  | not =>
    rw [GateFn.evalWord, lane_not lt, read]
    rfl
  | and => exact lane_andWords lt
  | or => exact lane_orWords
  | xor => exact lane_xorWords
  | nand =>
    rw [GateFn.evalWord, lane_not lt, lane_andWords lt]
    rfl
  | nor =>
    rw [GateFn.evalWord, lane_not lt, lane_orWords]
    rfl
  | xnor =>
    rw [GateFn.evalWord, lane_not lt, lane_xorWords]
    rfl
  | majority =>
    simp only [GateFn.evalWord, GateFn.evalBit]
    split
    · next three =>
      obtain ⟨a, b, c, rfl⟩ := List.length_eq_three.mp three
      exact lane_majority3
    · exact lane_majorityWord lt
  | latch =>
    rw [GateFn.evalWord, lane_selectWord lt, read, read]
    rfl
  | flipFlop => exact read 0
  | flipFlopRS =>
    rw [GateFn.evalWord, lane_and, lane_not lt, lane_or, read, read, read]
    rfl
  | input => exact lane_zero
  | custom n => exact lane_zero

end Functions

/-! ## Patterns -/

/-- The words of the first six inputs spell out the number of the lane. -/
theorem lane_laneWords : ∀ i < 6, ∀ p < 64, lane (laneWords.getD i 0) p = p.testBit i := by decide +kernel

theorem wordCount_eq (n : Nat) : wordCount n = 2 ^ (n - 6) := Nat.one_shiftLeft _

/-- The words of all inputs spell out the number of the word and, below it, that of the lane. -/
theorem lane_patternWord {w i p : Nat} (lt : p < 64) : lane (patternWord w i) p = (64 * w + p).testBit i := by
  have split : (64 * w + p).testBit i = if i < 6 then p.testBit i else w.testBit (i - 6) :=
    Nat.testBit_two_pow_mul_add (i := 6) w lt i
  rw [split, patternWord]
  split
  · next low => exact lane_laneWords i low p lt
  · exact lane_spread lt _

/-- Every pattern is a word number and a lane. -/
theorem exists_pattern (n : Nat) (bits : Nat → Bool) :
    ∃ w < wordCount n, ∃ p < 2 ^ min n 6, ∀ i < n, lane (patternWord w i) p = bits i := by
  have small := Nat.ofBits_lt_two_pow fun i : Fin n => bits i
  have value : ∀ i < n, (Nat.ofBits fun i : Fin n => bits i).testBit i = bits i :=
    fun i lt => Nat.testBit_ofBits_lt _ i lt
  generalize Nat.ofBits (fun i : Fin n => bits i) = number at small value
  refine ⟨number / 64, ?_, number % 64, ?_, fun i lt => ?_⟩
  · rw [wordCount_eq, Nat.div_lt_iff_lt_mul (by omega), show (64 : Nat) = 2 ^ 6 from rfl, ← Nat.pow_add]
    exact Nat.lt_of_lt_of_le small (Nat.pow_le_pow_right (by omega) (by omega))
  · rcases Nat.lt_or_ge n 6 with few | many
    · rw [Nat.min_eq_left (Nat.le_of_lt few)]
      exact Nat.lt_of_le_of_lt (Nat.mod_le number 64) small
    · rw [Nat.min_eq_right many]
      exact Nat.mod_lt number (by omega)
  · rw [lane_patternWord (Nat.mod_lt number (by omega)), Nat.div_add_mod]
    exact value i lt

end LogicNet
