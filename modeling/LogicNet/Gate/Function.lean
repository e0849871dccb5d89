/-!
# Gate functions

`GateFn` lists what a gate can compute: the sources and sinks, the constants, the usual boolean
operators, the triggered elements, and UNINTERPRETED cells, which are numbered and whose names live
in a `SymbolTable`.

The predicates below are the algebra the rest of the library relies on. The one that matters most
is `complement`: `and`/`nand`, `or`/`nor` and `xor`/`xnor` are each other's negation, and that is
why a netlist which already holds one of a pair never builds the other from scratch.
-/

namespace LogicNet

/-- The function computed by a gate. -/
inductive GateFn where
  /-- Primary input. -/
  | input
  /-- Primary output, driven by exactly one signal. -/
  | output
  | zero
  | one
  /-- Identity. Without inputs it is an unconnected placeholder. -/
  | buffer
  | not
  | and
  | or
  | xor
  | nand
  | nor
  | xnor
  /-- Strict majority of an odd number of inputs. -/
  | majority
  /-- Level-sensitive latch: data and enable. -/
  | latch
  /-- Edge-triggered flip-flop: data and clock. -/
  | flipFlop
  /-- Flip-flop with data, clock, reset and set. -/
  | flipFlopRS
  /-- Uninterpreted cell. -/
  | custom (number : Nat)
deriving DecidableEq, Repr, Inhabited

namespace GateFn

/-- The name of a built-in function. All uninterpreted cells share one name here. -/
def name : GateFn → String
  | .input => "IN"
  | .output => "OUT"
  | .zero => "ZERO"
  | .one => "ONE"
  | .buffer => "NOP"
  | .not => "NOT"
  | .and => "AND"
  | .or => "OR"
  | .xor => "XOR"
  | .nand => "NAND"
  | .nor => "NOR"
  | .xnor => "XNOR"
  | .majority => "MAJ"
  | .latch => "LATCH"
  | .flipFlop => "DFF"
  | .flipFlopRS => "DFFrs"
  | .custom _ => "CUSTOM"

/-- The name, with the number of an uninterpreted cell after it. -/
def text : GateFn → String
  | .custom n => "CUSTOM" ++ toString n
  | f => f.name

/-- Constants have no inputs and still are not sources. -/
def isConstant : GateFn → Bool
  | .zero | .one => true
  | _ => false

/-- The value of the gate is the value of its single input. -/
def isIdentity : GateFn → Bool
  | .output | .buffer => true
  | _ => false

/-- The inputs may be permuted. -/
def isCommutative : GateFn → Bool
  | .and | .or | .xor | .nand | .nor | .xnor | .majority => true
  | _ => false

/-- Nested applications may be flattened. -/
def isAssociative : GateFn → Bool
  | .and | .or | .xor => true
  | _ => false

/-- The function whose negation this function is, among the binary families. -/
def complement : GateFn → Option GateFn
  | .and => some .nand
  | .or => some .nor
  | .xor => some .xnor
  | .nand => some .and
  | .nor => some .or
  | .xnor => some .xor
  | _ => none

/-- The function is a negation over `complement`. -/
def isDecomposable (f : GateFn) : Bool := f.complement.isSome

/-- What is applied on top of `complement`. -/
def modifier (f : GateFn) : Option GateFn := if f.isDecomposable then some .not else none

/-- Latches and flip-flops. -/
def isTriggered : GateFn → Bool
  | .latch | .flipFlop | .flipFlopRS => true
  | _ => false

/-- The function takes this number of inputs. -/
def accepts (f : GateFn) (arity : Nat) : Bool :=
  match f with
  | .input | .zero | .one => arity == 0
  | .output | .not => arity == 1
  | .buffer => arity ≤ 1
  | .and | .or | .xor | .nand | .nor | .xnor => 1 ≤ arity
  | .majority => arity % 2 == 1
  | .latch | .flipFlop => arity == 2
  | .flipFlopRS => arity == 4
  | .custom _ => true

/-- Position of a function in a total order of all functions. -/
def rank : GateFn → Nat
  | .input => 0
  | .output => 1
  | .zero => 2
  | .one => 3
  | .buffer => 4
  | .not => 5
  | .and => 6
  | .or => 7
  | .xor => 8
  | .nand => 9
  | .nor => 10
  | .xnor => 11
  | .majority => 12
  | .latch => 13
  | .flipFlop => 14
  | .flipFlopRS => 15
  | .custom n => 16 + n

theorem rank_inj {f g : GateFn} (h : f.rank = g.rank) : f = g := by
  cases f <;> cases g <;> simp_all [rank] <;> omega

end GateFn

/-! ## Names of uninterpreted cells -/

/-- The names of the uninterpreted cells met in one place, for instance in one file. The cell
numbered `n` has the name at position `n`. -/
structure SymbolTable where
  names : List String := []
deriving DecidableEq, Repr, Inhabited

namespace SymbolTable

/-- A table holds at most this many names. -/
def capacity : Nat := 65535

/-- The cell of this name, which is added at the end if it is new; `none` when the table is full. -/
def intern (t : SymbolTable) (name : String) : Option (GateFn × SymbolTable) :=
  if name ∈ t.names then some (.custom (t.names.idxOf name), t)
  else if t.names.length < capacity then
    some (.custom t.names.length, ⟨t.names ++ [name]⟩)
  else none

/-- The name of a function, `none` for a cell this table does not hold. -/
def nameOf? (t : SymbolTable) : GateFn → Option String
  | .custom n => t.names[n]?
  | f => some f.name

end SymbolTable

end LogicNet
