import LogicNet.Signal
import LogicNet.Gate.Function

/-!
# Gates

A gate has a SHAPE (its function and its inputs) and a FAN-OUT (one link for each use of it as an
input). The shape is what two gates have in common when they compute the same thing from the same
drivers, so it is a type of its own and the key under which a netlist shares its gates.

Whether a gate is a source, a constant, an output or a trigger depends on its shape alone. A gate
is TRIGGERED when some input is sampled by an event; this is a property of the inputs and not of
the function, so an `and` gate with a clocked input is triggered and a flip-flop on plain signals
is not.
-/

namespace LogicNet

open Std

/-- What a gate computes, and from which signals. -/
structure Shape where
  fn : GateFn
  inputs : List Signal
deriving DecidableEq, Repr, Inhabited

/-- Shapes are ordered by function, then by their inputs. -/
instance : Ord Shape := ⟨compareLex (compareOn fun s => s.fn.rank) (compareOn Shape.inputs)⟩

instance : TransOrd Shape :=
  inferInstanceAs (TransCmp (compareLex (compareOn fun s : Shape => s.fn.rank)
    (compareOn Shape.inputs)))

instance : LawfulEqOrd Shape where
  eq_of_compare {a b} h := by
    obtain ⟨hf, hi⟩ := compareLex_eq_eq.1 h
    have hf : compare a.fn.rank b.fn.rank = .eq := hf
    have hi : compare a.inputs b.inputs = .eq := hi
    cases a; cases b
    have := GateFn.rank_inj (LawfulEqOrd.eq_of_compare hf)
    have := LawfulEqOrd.eq_of_compare hi
    simp_all

namespace Shape

/-- A function over plain data signals. -/
def nary (fn : GateFn) (xs : List GateId) : Shape := ⟨fn, xs.map Signal.plain⟩

def arity (s : Shape) : Nat := s.inputs.length

/-- No inputs, and not a constant: a primary input or an unconnected placeholder. -/
def isSource (s : Shape) : Bool := s.inputs.isEmpty && !s.fn.isConstant

def isOutput (s : Shape) : Bool := s.fn == .output

def isConstant (s : Shape) : Bool := s.fn.isConstant

/-- Some input is sampled by an event. -/
def isTrigger (s : Shape) : Bool := s.inputs.any (!·.isPlain)

def isCombinational (s : Shape) : Bool := !s.isSource && !s.isTrigger

/-- Outputs and sources stand for themselves; every other shape is built only once. -/
def isShareable (s : Shape) : Bool := !s.isOutput && !s.isSource

/-- The shape computing the negation on the same inputs, if the function has a complement. -/
def complement (s : Shape) : Option Shape := s.fn.complement.map fun f => { s with fn := f }

/-- The function accepts the number of inputs. -/
def hasArity (s : Shape) : Bool := s.fn.accepts s.arity

/-- The links that the inputs of a gate `id` of this shape come through, in order. -/
def inputLinks (s : Shape) (id : GateId) : List Link :=
  s.inputs.mapIdx fun i x => Link.edge x.driver id i

end Shape

/-- A gate of a netlist. -/
structure Gate extends Shape where
  id : GateId
  /-- One link for each use of this gate as an input. -/
  fanout : List Link := []
deriving DecidableEq, Repr, Inhabited

namespace Gate

def inputLinks (g : Gate) : List Link := g.toShape.inputLinks g.id

/-- The function accepts the number of inputs, and an output drives nothing. -/
def isValid (g : Gate) : Bool := g.hasArity && (!g.isOutput || g.fanout.isEmpty)

/-- The gate as an equation: `g2 <= XOR(g0, g1)`. -/
def text (g : Gate) : String :=
  g.id.text ++ " <= " ++ g.fn.text ++ "(" ++ ", ".intercalate (g.inputs.map Signal.text) ++ ")"

/-- The equation with the size of the fan-out. -/
def detail (g : Gate) : String :=
  "G\x7b" ++ g.text ++ "\x7d[fo=" ++ toString g.fanout.length ++ "]"

end Gate

end LogicNet
