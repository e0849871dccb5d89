import LogicNet.Cnf.Basic

/-!
# Formulas under construction

A formula grows: it hands out variables and collects clauses, and takes nothing back.

The variables of gates are INTERNED. A gate is named by a `Site`, the netlist it belongs to and its
identifier there, and has a variable for each version, which is a time step. The reconnection map
makes a gate use the variables of another one. Auxiliary variables are new each time and shared
with nothing.
-/

namespace LogicNet

open Std

/-- A gate of one of the netlists that take part in a query. -/
structure Site where
  /-- The position of the netlist in the query. -/
  net : Nat
  gate : GateId
deriving DecidableEq, Repr, Inhabited

instance : Ord Site := ⟨compareLex (compareOn Site.net) (compareOn Site.gate)⟩

instance : TransOrd Site :=
  inferInstanceAs (TransCmp (compareLex (compareOn Site.net) (compareOn Site.gate)))

instance : LawfulEqOrd Site where
  eq_of_compare {a b} h := by
    obtain ⟨hn, hg⟩ := compareLex_eq_eq.1 h
    have hn : compare a.net b.net = .eq := hn
    have hg : compare a.gate b.gate = .eq := hg
    cases a; cases b
    have := LawfulEqOrd.eq_of_compare hn
    have := LawfulEqOrd.eq_of_compare hg
    simp_all

/-- A gate at a time step. -/
structure Moment where
  site : Site
  version : Nat
deriving DecidableEq, Repr, Inhabited

instance : Ord Moment := ⟨compareLex (compareOn Moment.site) (compareOn Moment.version)⟩

instance : TransOrd Moment :=
  inferInstanceAs (TransCmp (compareLex (compareOn Moment.site) (compareOn Moment.version)))

instance : LawfulEqOrd Moment where
  eq_of_compare {a b} h := by
    obtain ⟨hs, hv⟩ := compareLex_eq_eq.1 h
    have hs : compare a.site b.site = .eq := hs
    have hv : compare a.version b.version = .eq := hv
    cases a; cases b
    have := LawfulEqOrd.eq_of_compare hs
    have := LawfulEqOrd.eq_of_compare hv
    simp_all

/-- Which gate uses the variables of which other gate. -/
abbrev Reconnection := TreeMap Site Site

/-- Variables handed out, and clauses collected. -/
structure Formula where
  /-- The number of variables; the next one has this number. -/
  size : Nat := 0
  clauses : Array Clause := #[]
  vars : TreeMap Moment Nat := {}
  reconnection : Reconnection := {}
  /-- The model found last. -/
  model : Option Model := none

namespace Formula

/-- The formula without variables and clauses. -/
def withReconnection (reconnection : Reconnection) : Formula := { reconnection }

/-- The gate whose variables a gate uses. -/
def connected (f : Formula) (s : Site) : Site := f.reconnection.getD s s

/-- A new auxiliary variable. -/
def fresh (f : Formula) : Nat × Formula := (f.size, { f with size := f.size + 1 })

/-- The variable of a gate at a time step, handed out on its first use. -/
def var (f : Formula) (s : Site) (version : Nat) : Nat × Formula :=
  let key : Moment := ⟨f.connected s, version⟩
  match f.vars[key]? with
  | some v => (v, f)
  | none =>
    let (v, f) := f.fresh
    (v, { f with vars := f.vars.insert key v })

/-- Variables of several gates, handed out in order. -/
def varsOf (f : Formula) : List (Site × Nat) → List Nat × Formula
  | [] => ([], f)
  | (s, version) :: rest =>
    let (v, f) := f.var s version
    let (vs, f) := f.varsOf rest
    (v :: vs, f)

def add (f : Formula) (c : Clause) : Formula := { f with clauses := f.clauses.push c }

def addAll (f : Formula) (cs : List Clause) : Formula := cs.foldl add f

/-- The literals of the clauses from position `n` on can be made. -/
def isNumberedFrom (f : Formula) (n : Nat) : Bool := f.clauses.all (·.isBelow (Lit.largestVar + 1)) n

/-- All literals can be made. -/
def isNumbered (f : Formula) : Bool := f.isNumberedFrom 0

/-- The formula, if the literals of its clauses from position `n` on can be made. -/
def requireNumberedFrom (f : Formula) (n : Nat) : Result Formula := do
  Result.require (f.isNumberedFrom n) .unnumberedVariable
  return f

/-- The formula, if all its literals can be made. -/
def requireNumbered (f : Formula) : Result Formula := f.requireNumberedFrom 0

/-- Ask an oracle, keep its model, and tell whether there is one. -/
def solve (f : Formula) (oracle : Oracle) : Result (Bool × Formula) := do
  let model ← oracle f.size f.clauses.toList
  return (model.isSome, { f with model })

/-- The value of a variable in the model found last. -/
def value (f : Formula) (v : Nat) : Result Bool :=
  match f.model with
  | none => .error (.breach .noModel)
  | some m => Result.getOrBreach m[v]? .outOfRange

/-- A literal is true in the model found last. -/
def holds (f : Formula) (l : Lit) : Result Bool := (f.value l.var).map (· == l.positive)

/-- Every clause is true in the model found last. In a clause the literals after the first true one
do not count, so the model has to know only the variables before it. -/
def modelHolds (f : Formula) : Result Bool := f.clauses.toList.allM fun c => c.anyM f.holds

/-- A clause in DIMACS format: its literals, and a zero at the end. -/
def clauseLine (c : Clause) : String := String.join (c.map fun l => l.text ++ " ") ++ "0\n"

/-- The formula, if all its literals can be written. The one over the largest variable cannot,
because variables are counted from one there. -/
def requireWritable (f : Formula) : Result Formula := do
  Result.require (f.clauses.all (·.isBelow Lit.largestVar)) .unwritableVariable
  return f

/-- The formula in DIMACS format. -/
def dimacs (f : Formula) : String :=
  "p cnf " ++ toString f.size ++ " " ++ toString f.clauses.size ++ "\n"
    ++ String.join (f.clauses.toList.map clauseLine)

end Formula

end LogicNet
