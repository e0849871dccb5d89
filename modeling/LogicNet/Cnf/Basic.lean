import LogicNet.Fault

/-!
# Clauses and solvers

Formulas in conjunctive normal form, over numbered variables. An ORACLE is anything that decides
them: it answers with a model, with the fact that there is none, or with a refusal. The rest of the
library uses an oracle only through this type.
-/

namespace LogicNet

/-- A variable or its negation. -/
structure Lit where
  var : Nat
  positive : Bool
deriving DecidableEq, Repr, Inhabited

namespace Lit

def negate (l : Lit) : Lit := { l with positive := !l.positive }

/-- The literal is true under an assignment. -/
def holds (value : Nat → Bool) (l : Lit) : Bool := value l.var == l.positive

/-- The largest variable that a literal can be made of. -/
def largestVar : Nat := 2147483647

/-- Variables are counted from one and negation is a sign. -/
def text (l : Lit) : String := (if l.positive then "" else "-") ++ toString (l.var + 1)

end Lit

/-- A disjunction of literals. -/
abbrev Clause := List Lit

namespace Clause

/-- Some literal is true. -/
def holds (value : Nat → Bool) (c : Clause) : Bool := c.any (Lit.holds value)

/-- All variables are below a bound. -/
def isBelow (c : Clause) (bound : Nat) : Bool := c.all (·.var < bound)

end Clause

/-- One value for each variable. -/
abbrev Model := Array Bool

namespace Model

/-- The assignment a model stands for; variables it does not know are false. -/
def value (m : Model) (v : Nat) : Bool := m.getD v false

/-- Every clause is true in the model. -/
def satisfies (m : Model) (clauses : List Clause) : Bool := clauses.all (Clause.holds m.value)

end Model

/-- Decides formulas: given the number of variables and the clauses, a model or the answer that
there is none. -/
abbrev Oracle := Nat → List Clause → Result (Option Model)

end LogicNet
