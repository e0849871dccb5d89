import LogicNet.Design.Basic
import LogicNet.Equivalence.Hints

/-!
# Binding designs by name

Two designs are compared port by port, and ports correspond if they have the same name. There must
be equally many ports of each kind, and each left port needs a right one.
-/

namespace LogicNet

open Std

/-- The gates of a design that have names. -/
inductive NamedKind where
  | input
  | output
  | flipFlop
deriving DecidableEq, Repr

namespace NamedKind

def text : NamedKind → String
  | .input => "inputs"
  | .output => "outputs"
  | .flipFlop => "flip-flops"

end NamedKind

/-- Why two designs have no common names. -/
inductive Mismatch where
  | counts (kind : NamedKind) (left right : Nat)
  | noCounterpart (kind : NamedKind) (name : String)
deriving DecidableEq, Repr

namespace Mismatch

def message : Mismatch → String
  | .counts kind l r =>
    "Different number of " ++ kind.text ++ ": " ++ toString l ++ " vs " ++ toString r
  | .noCounterpart kind name => kind.text ++ " " ++ name ++ " has no counterpart"

end Mismatch

namespace Design

/-- Bind the ports of equally named gates. Of several right gates with one name the last counts. -/
def bindNamed (kind : NamedKind) (left right : NamedGates) : Except Mismatch Binding :=
  if left.length ≠ right.length then .error (.counts kind left.length right.length)
  else
    let byName : TreeMap String GateId := right.foldl (fun m (name, g) => m.insert name g) {}
    left.foldlM
      (fun (b : Binding) (name, g) =>
        match byName[name]? with
        | some r => .ok (b.insert (.port g) (.port r))
        | none => .error (.noCounterpart kind name))
      {}

/-- Bind inputs, outputs and flip-flops by name. -/
def bindByName (left right : Design) : Except Mismatch Hints := do
  let sources ← bindNamed .input left.inputs right.inputs
  let targets ← bindNamed .output left.outputs right.outputs
  let triggers ← bindNamed .flipFlop left.triggers right.triggers
  return { sources := some sources, targets := some targets, triggers := some triggers }

end Design

end LogicNet
