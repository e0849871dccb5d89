import Std.Data.TreeMap

/-!
# Topological order

Nodes come with a number of dependencies and a list of followers. A node whose dependencies have
all been placed joins the end of a queue, and the front of the queue is placed next, so nodes keep
their former order wherever the dependencies allow it.

A node is placed at most once and every round places one, so as many rounds as there are nodes are
enough. If they are not all placed then, some of them wait for each other: there is a loop, and no
order.
-/

namespace LogicNet

open Std

variable {α : Type} [Ord α]

/-- Count off one dependency of each follower in turn. Returns those that wait for nothing more, and
what the others still wait for. -/
def release (waiting : TreeMap α Nat) : List α → List α × TreeMap α Nat
  | [] => ([], waiting)
  | t :: ts =>
    match waiting[t]? with
    | none => release waiting ts
    | some n =>
      if n ≤ 1 then
        let (ready, waiting) := release (waiting.erase t) ts
        (t :: ready, waiting)
      else release (waiting.insert t (n - 1)) ts

/-- Place nodes from the front of the queue, at most `rounds` of them. -/
def placeAll (followers : α → List α) : Nat → List α → TreeMap α Nat → List α
  | 0, _, _ => []
  | _ + 1, [], _ => []
  | rounds + 1, x :: queue, waiting =>
    let (ready, waiting) := release waiting (followers x)
    x :: placeAll followers rounds (queue ++ ready) waiting

/-- An order of the nodes in which each comes after what it depends on; `none` if there is a loop. -/
def topologicalOrder (nodes : List α) (dependencies : α → Nat) (followers : α → List α) :
    Option (List α) :=
  let counted := nodes.map fun x => (x, dependencies x)
  let waiting := TreeMap.ofList (counted.filter fun (_, n) => 0 < n)
  let free := (counted.filter fun (_, n) => n = 0).map Prod.fst
  let order := placeAll followers nodes.length free waiting
  if order.length = nodes.length then some order else none

end LogicNet
