import LogicNet.Cnf.Basic

/-!
# Deciding clauses

A search that LEARNS from its dead ends. Variables are decided one after the other, and after each
decision the clauses in which a single literal is left make that literal true. If a clause becomes
false, then it is resolved with the clauses that forced its literals, until only one of its literals
depends on the last decision. The result follows from the formula, and is kept. The search goes
back to where the new clause forces that literal, and goes on from there.

Both answers are checked where they are given, and rely on nothing else. A model is returned only
if all clauses hold in it, and unsatisfiability is answered only when resolution has led to the
empty clause. Which clauses are looked at, and which variable is decided next, makes the search
shorter or longer and nothing more.
-/

namespace LogicNet

open Std

namespace Search

/-! ## Values -/

/-- The values determined so far. -/
abbrev Partial := Array (Option Bool)

/-- The value of a literal, if it is determined. -/
def valueOf (values : Partial) (l : Lit) : Option Bool :=
  (values.getD l.var none).map (· == l.positive)

/-- How a clause stands. -/
inductive Standing where
  /-- A literal is true, or two are undetermined. -/
  | settled
  /-- All literals but this one are false. -/
  | forces (l : Lit)
  | falsified
deriving DecidableEq, Repr

/-- How a clause stands whose earlier literals are false, except for `left`. -/
def standingAfter (values : Partial) : Option Lit → Clause → Standing
  | none, [] => .falsified
  | some l, [] => .forces l
  | left, l :: rest =>
    match valueOf values l, left with
    | some true, _ => .settled
    | some false, _ => standingAfter values left rest
    | none, none => standingAfter values (some l) rest
    | none, some k => if k = l then standingAfter values left rest else .settled

def standing (values : Partial) (c : Clause) : Standing := standingAfter values none c

/-! ## Resolution -/

/-- Resolve two clauses on a literal: `l` occurs in the reason and its negation in `c`. -/
def resolve (c : Clause) (l : Lit) (reason : Clause) : Clause :=
  let rest := c.filter (· ≠ l.negate)
  rest ++ (reason.filter fun k => k ≠ l && !rest.contains k)

/-- A literal that was made true, after how many decisions, and the clause that forced it. A
decision has none. -/
structure Step where
  literal : Lit
  level : Nat
  reason : Option Clause
deriving Repr

/-- Resolve a clause on a forced literal, if it occurs there. -/
def resolveStep (c : Clause) (s : Step) : Clause :=
  match s.reason with
  | some reason => if c.contains s.literal.negate then resolve c s.literal reason else c
  | none => c

/-- Resolve a clause with the reasons of a trail, the last step first. -/
def explain (trail : List Step) (c : Clause) : Clause := trail.foldl resolveStep c

/-! ## States -/

/-- A search under way. A clause with two literals or more is WATCHED by two of them. As long as
neither is false, the clause forces nothing; so a clause is looked at only when one of the literals
that watch it becomes false. -/
structure State where
  values : Partial
  /-- For each determined variable, after how many decisions it was determined. -/
  levels : Array Nat
  /-- The number of decisions made. -/
  level : Nat := 0
  /-- The literals made true, the last one first. -/
  trail : List Step := []
  /-- Literals whose consequences are not drawn yet. -/
  pending : List Lit := []
  clauses : Array Clause := #[]
  /-- For each clause, the literals that watch it. -/
  watched : Array (Lit × Lit) := #[]
  /-- For each literal, the numbers of the clauses that it watches. -/
  watching : Array (List Nat)
  /-- The variables in the order in which they are decided. -/
  order : List Nat
  /-- The value each variable had last. -/
  saved : Array Bool

namespace State

/-- The position of a literal among all literals. -/
def position (l : Lit) : Nat := 2 * l.var + if l.positive then 1 else 0

/-- Keep a clause, which two of its literals watch. -/
def keep (s : State) (c : Clause) (a b : Lit) : State :=
  let n := s.clauses.size
  { s with
    clauses := s.clauses.push c
    watched := s.watched.push (a, b)
    watching := (s.watching.modify (position a) (n :: ·)).modify (position b) (n :: ·) }

/-- Make a literal true. -/
def assign (s : State) (l : Lit) (reason : Option Clause) : State :=
  { s with
    values := s.values.setIfInBounds l.var (some l.positive)
    levels := s.levels.setIfInBounds l.var s.level
    saved := s.saved.setIfInBounds l.var l.positive
    trail := ⟨l, s.level, reason⟩ :: s.trail
    pending := l :: s.pending }

/-- Let clause `n` be watched by `a` and `b`, where `a` watches it already. -/
def rewatch (s : State) (n : Nat) (a b : Lit) : State :=
  { s with
    watched := s.watched.setIfInBounds n (a, b)
    watching := s.watching.modify (position b) (n :: ·) }

/-- Let a literal keep watching a clause. -/
def stay (s : State) (n : Nat) (l : Lit) : State :=
  { s with watching := s.watching.modify (position l) (n :: ·) }

/-- Look at the clauses that a literal watched until it became false. The clause returned is one
that is false. -/
def visit (s : State) (l : Lit) : List Nat → Option Clause × State
  | [] => (none, s)
  | n :: rest =>
    let c := s.clauses.getD n []
    let (a, b) := s.watched.getD n (l, l)
    let other := if a = l then b else a
    if valueOf s.values other = some true then (s.stay n l).visit l rest
    else
      match c.find? fun k => k ≠ l && k ≠ other && valueOf s.values k != some false with
      | some k => (s.rewatch n other k).visit l rest
      | none =>
        let s := s.stay n l
        if valueOf s.values other = none then (s.assign other (some c)).visit l rest
        else (some c, rest.foldl (fun s n => s.stay n l) s)

/-- Draw the consequences of the negation of a literal. -/
def falsify (s : State) (l : Lit) : Option Clause × State :=
  let ns := s.watching.getD (position l) []
  { s with watching := s.watching.setIfInBounds (position l) [] }.visit l ns

/-- Take back the steps after more decisions than `level`. -/
def backTo (s : State) (level : Nat) : State :=
  let undone := s.trail.takeWhile fun x => level < x.level
  { s with
    values := undone.foldl (fun values x => values.setIfInBounds x.literal.var none) s.values
    level
    trail := s.trail.drop undone.length
    pending := [] }

/-- Decide variables in this order before the others. -/
def prefer (s : State) (vars : List Nat) : State :=
  { s with order := vars ++ s.order.filter fun v => !vars.contains v }

/-- The next decision: the first undetermined variable gets the value it had last. -/
def nextDecision? (s : State) : Option Lit :=
  (s.order.find? fun v => (s.values.getD v none).isNone).map fun v => ⟨v, s.saved.getD v false⟩

/-- Make a decision. -/
def decideOn (s : State) (l : Lit) : State := { s with level := s.level + 1 }.assign l none

/-! ## Learning -/

def levelOf (s : State) (l : Lit) : Nat := s.levels.getD l.var 0

/-- The largest level of some literals. -/
def topLevel (s : State) (c : Clause) : Nat := c.foldl (fun n l => max n (s.levelOf l)) 0

/-- Resolve a false clause until a single literal of this level is left in it. -/
def narrow (s : State) (level : Nat) : List Step → Clause → Clause
  | [], c => c
  | x :: trail, c =>
    if c.countP (fun l => s.levelOf l == level) ≤ 1 then c
    else s.narrow level trail (resolveStep c x)

/-- Resolve where this only removes literals, or brings in literals that no decision made. -/
def shorten (s : State) (c : Clause) : Clause :=
  s.trail.foldl
    (fun c x =>
      if c.contains x.literal.negate
          && (x.reason.getD []).all fun k => k = x.literal || c.contains k || s.levelOf k == 0 then
        resolveStep c x
      else c)
    c

/-- The variables determined at this level by a clause that shares a literal with `c`. -/
def neighbours (s : State) (level : Nat) (c : Clause) : List Nat :=
  (s.trail.takeWhile fun x => x.level == level).filterMap fun x =>
    if (x.reason.getD []).any c.contains then some x.literal.var else none

/-- The variables to decide first after a clause was learnt: its own, and for some of the clauses
also the neighbours. Parities take too long without neighbours, and most other formulas take longer
with them. -/
def preferred (s : State) (level : Nat) (c : Clause) : List Nat :=
  let own := c.map Lit.var
  if s.clauses.size / 32 % 4 = 0 then (own ++ s.neighbours level c).eraseDups else own

/-- Learn from a false clause, and go back to where the learnt clause forces a literal. -/
def learn (s : State) (c : Clause) : State :=
  let level := s.topLevel c
  let learnt := s.shorten (s.narrow level s.trail c)
  let (last, others) := learnt.partition fun l => s.levelOf l == level
  let back := s.topLevel others
  let second := others.find? fun l => s.levelOf l == back
  let s := (s.backTo back).prefer (s.preferred level learnt)
  match last, second with
  | l :: _, some k => (s.keep learnt l k).assign l (some learnt)
  | l :: _, none => s.assign l (some learnt)
  | [], _ => s

end State

/-! ## The search -/

/-- What a search ends with. -/
inductive Answer where
  | model (values : Partial)
  /-- A clause that follows from the formula. -/
  | consequence (c : Clause)
  | unfinished

/-- Search on. A step draws the consequences of one literal, and then learns from a false clause, or
makes a decision when no literal is left. -/
def search : Nat → State → Answer
  | 0, _ => .unfinished
  | fuel + 1, s =>
    match s.pending with
    | [] =>
      match s.nextDecision? with
      | none => .model s.values
      | some l => search fuel (s.decideOn l)
    | l :: rest =>
      match { s with pending := rest }.falsify l.negate with
      | (none, s) => search fuel s
      | (some c, s) =>
        if s.topLevel c = 0 then .consequence (explain s.trail c) else search fuel (s.learn c)

/-- The start of a search over `n` variables. -/
def start (n : Nat) : State :=
  { values := .replicate n none
    levels := .replicate n 0
    watching := .replicate (2 * n) []
    order := List.range n
    saved := .replicate n false }

/-- Begin with the clauses of a formula. -/
def load (s : State) : List Clause → Option Clause × State
  | [] => (none, s)
  | c :: cs =>
    match standing s.values c with
    | .falsified => (some c, s)
    | .forces l => load (s.assign l (some c)) cs
    | .settled =>
      match c.eraseDups with
      | a :: b :: _ => load (s.keep c a b) cs
      | _ => load s cs

/-- Decide clauses over `n` variables. -/
def run (n : Nat) (clauses : List Clause) : Answer :=
  match load (start n) clauses with
  | (some c, s) => .consequence (explain s.trail c)
  | (none, s) => search (1 <<< (2 * (n + 1))) s

/-! ## The oracle -/

/-- The largest variable a search takes. -/
def largestVar : Nat := 1 <<< 28 - 1

/-- Stop at a literal that no search takes. -/
def requireTaken (l : Lit) : Result Unit := do
  Result.require (l.var < Lit.largestVar) .unwritableVariable
  Result.require (l.var ≤ largestVar) .largeVariable

/-- The variables that occur in the clauses. -/
def occurring (clauses : List Clause) : TreeSet Nat :=
  clauses.foldl (fun vars c => c.foldl (fun vars l => vars.insert l.var) vars) {}

/-- A clause over the numbers of its variables. -/
def renumber (numbers : TreeMap Nat Nat) (c : Clause) : Clause :=
  c.map fun l => { l with var := numbers.getD l.var 0 }

/-- Decide clauses. The search runs over the variables that occur, counted from zero. The model has
`size` values, and is false where a variable does not occur. -/
def solve : Oracle := fun size clauses => do
  clauses.forM fun c => c.forM requireTaken
  let vars := (occurring clauses).toList
  let numbers : TreeMap Nat Nat := TreeMap.ofList vars.zipIdx
  let compact := clauses.map (renumber numbers)
  match run vars.length compact with
  | .model values =>
    let model : Model := values.map (·.getD false)
    if model.satisfies compact then
      .ok (some ((List.range size).map fun v => numbers[v]?.any model.value).toArray)
    else .error (.refusal (.solver "no model"))
  | .consequence [] => .ok none
  | _ => .error (.refusal (.solver "no answer"))

end Search

end LogicNet
