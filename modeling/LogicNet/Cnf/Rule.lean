import LogicNet.Cnf.Formula

/-!
# Clauses for boolean functions

Each rule adds the clauses that make a variable `y` equal to a function of other variables; without
`sign`, to its negation. A rule never changes a clause that is there already, and the auxiliary
variables it introduces are determined by the others.

Chains of `xor` are cut into pieces of two operands. A majority of five or more operands counts
them: level `j` of the counter says that at least `j + 1` of the operands seen so far are set.
-/

namespace LogicNet

/-- A variable, or its negation. -/
def lit (v : Nat) (positive : Bool) : Lit := ⟨v, positive⟩

namespace Formula

/-- Variable `y` has this value. -/
def fix (f : Formula) (y : Nat) (value : Bool) : Formula := f.add [lit y value]

/-- `y` is `x`. -/
def buffer (f : Formula) (y x : Nat) (sign : Bool) : Formula :=
  let x := lit x sign
  f.addAll [[lit y false, x], [lit y true, x.negate]]

/-- `y` is the conjunction of `xs`. -/
def conj (f : Formula) (y : Nat) (xs : List Nat) (sign : Bool) : Formula :=
  let n := lit y sign
  (f.addAll (xs.map fun x => [n.negate, lit x true])).add (xs.map (lit · false) ++ [n])

/-- `y` is the disjunction of `xs`. -/
def disj (f : Formula) (y : Nat) (xs : List Nat) (sign : Bool) : Formula :=
  let n := lit y sign
  (f.addAll (xs.map fun x => [n, lit x false])).add (xs.map (lit · true) ++ [n.negate])

/-- `y` is the exclusive or of `a` and `b`. -/
def parity (f : Formula) (y a b : Nat) (sign : Bool) : Formula :=
  let n := lit y sign
  let a := lit a true
  let b := lit b true
  f.addAll [[a, b, n.negate], [a.negate, b.negate, n.negate], [a.negate, b, n], [a, b.negate, n]]

/-- `y` is the exclusive or of `a` and all of `rest`. -/
def parityFrom (f : Formula) (y : Nat) (sign : Bool) (a : Nat) : List Nat → Formula
  | [] => f.buffer y a sign
  | [b] => f.parity y a b sign
  | b :: rest =>
    let (t, f) := f.fresh
    (f.parity t a b true).parityFrom y sign t rest

/-- `y` is the exclusive or of `xs`, of which there is at least one. -/
def parityChain (f : Formula) (y : Nat) (xs : List Nat) (sign : Bool) : Result Formula :=
  match xs with
  | [] => .error (.breach .noOperands)
  | a :: rest => .ok (f.parityFrom y sign a rest)

/-- `y` is `a` where `s` is set, and `b` elsewhere. The last two clauses follow from the others. -/
def select (f : Formula) (y s a b : Nat) : Formula :=
  let n := lit y true
  let s := lit s true
  let a := lit a true
  let b := lit b true
  f.addAll [[s.negate, a.negate, n], [s.negate, a, n.negate], [s, b.negate, n], [s, b, n.negate],
    [a, b, n.negate], [a.negate, b.negate, n]]

/-- `y` is set when at least two of three operands are. -/
def majority3 (f : Formula) (y a b c : Nat) : Formula :=
  let n := lit y true
  let a := lit a true
  let b := lit b true
  let c := lit c true
  f.addAll [[a.negate, b.negate, n], [b.negate, c.negate, n], [a.negate, c.negate, n],
    [a, b, n.negate], [b, c, n.negate], [a, c, n.negate]]

/-! ## Counting -/

/-- A level of the counter after one more reason to reach it. -/
def raiseLevel (f : Formula) (level : Option Nat) (reason : Nat) : Option Nat × Formula :=
  match level with
  | none => (some reason, f)
  | some c =>
    let (t, f) := f.fresh
    (some t, f.disj t [c, reason] true)

/-- The levels above one that stood at `below` before operand `x` came. A level that was never
reached gives no reason for the next one. -/
def countAbove (f : Formula) (x : Nat) : Option Nat → List (Option Nat) → List (Option Nat) × Formula
  | _, [] => ([], f)
  | none, level :: levels =>
    let (levels, f) := f.countAbove x level levels
    (level :: levels, f)
  | some c, level :: levels =>
    let (t, f) := f.fresh
    let (raised, f) := (f.conj t [c, x] true).raiseLevel level t
    let (levels, f) := f.countAbove x level levels
    (raised :: levels, f)

/-- Count one more operand. -/
def countOperand (f : Formula) (x : Nat) : List (Option Nat) → List (Option Nat) × Formula
  | [] => ([], f)
  | level :: levels =>
    let (raised, f) := f.raiseLevel level x
    let (levels, f) := f.countAbove x level levels
    (raised :: levels, f)

/-- Count all operands. -/
def countAll (f : Formula) (levels : List (Option Nat)) : List Nat → List (Option Nat) × Formula
  | [] => (levels, f)
  | x :: xs =>
    let (levels, f) := f.countOperand x levels
    f.countAll levels xs

/-- `y` is set when at least `k` of `xs` are, `0 < k`. -/
def atLeast (f : Formula) (y : Nat) (xs : List Nat) (k : Nat) : Formula :=
  let (levels, f) := f.countAll (List.replicate k none) xs
  match levels.getLast?.join with
  | some c => f.buffer y c true
  | none => f.fix y false

/-- `y` is set when more than half of `xs` are, of which there is an odd number. -/
def majority (f : Formula) (y : Nat) (xs : List Nat) : Result Formula :=
  if xs.length % 2 = 1 then
    match xs with
    | [x] => .ok (f.buffer y x true)
    | [a, b, c] => .ok (f.majority3 y a b c)
    | _ => .ok (f.atLeast y xs ((xs.length + 1) / 2))
  else .error (.breach .evenMajority)

end Formula

end LogicNet
