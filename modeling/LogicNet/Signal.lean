import Std.Data.TreeMap
import Std.Data.TreeSet

/-!
# Identifiers, signals and links

The vocabulary every netlist is written in. A gate is named by a `GateId`, reads its inputs as
`Signal`s (a driver together with the event that samples it), and is connected by `Link`s.

A link ends at a `Pin`: a numbered input of its target, or the PORT, which stands for the outside
world. So the port of a primary input and the edges between gates are links of one type, and a set
of links describes a whole boundary.

Each type carries a total order. The order decides how answers are listed, and it is what the
sorted tables and sets of the library are keyed by; `LawfulEqOrd` says that the order never
confuses two different keys.
-/

namespace LogicNet

open Std

/-! ## Gate identifiers -/

/-- The number of a gate, handed out by the netlist that owns the gate. Two netlists may use one
number for unrelated gates. -/
structure GateId where
  index : Nat
deriving DecidableEq, Repr, Inhabited

namespace GateId

/-- Identifiers are 32-bit numbers; this is the largest one. -/
def largest : Nat := 4294967295

/-- An identifier is written `g` and its number. -/
def text (g : GateId) : String := "g" ++ toString g.index

end GateId

instance : Ord GateId := ⟨compareOn GateId.index⟩

instance : TransOrd GateId := inferInstanceAs (TransCmp (compareOn GateId.index))

instance : LawfulEqOrd GateId where
  eq_of_compare {a b} h := by
    have h : compare a.index b.index = .eq := h
    cases a; cases b; simp_all

/-! ## Signals -/

/-- When a gate observes one of its inputs. -/
inductive Event where
  /-- The value is used at any time: plain data. -/
  | always
  | rising
  | falling
  /-- Active while the driver is low. -/
  | low
  /-- Active while the driver is high. -/
  | high
deriving DecidableEq, Repr, Inhabited

namespace Event

/-- Position of an event in the order `always < rising < falling < low < high`. -/
def rank : Event → Nat
  | .always => 0
  | .rising => 1
  | .falling => 2
  | .low => 3
  | .high => 4

theorem rank_inj {a b : Event} (h : a.rank = b.rank) : a = b := by
  cases a <;> cases b <;> simp_all [rank]

end Event

/-- One input of a gate: a driver and the event that samples it. -/
structure Signal where
  event : Event
  driver : GateId
deriving DecidableEq, Repr, Inhabited

namespace Signal

/-- A signal whose value is used at any time. -/
def plain (d : GateId) : Signal := ⟨.always, d⟩

def isPlain (s : Signal) : Bool := s.event == .always

/-- The same event on another driver. -/
def withDriver (s : Signal) (d : GateId) : Signal := { s with driver := d }

/-- Plain signals are written as their driver; every other event wraps it. -/
def text (s : Signal) : String :=
  match s.event with
  | .always => s.driver.text
  | .rising => "posedge(" ++ s.driver.text ++ ")"
  | .falling => "negedge(" ++ s.driver.text ++ ")"
  | .low => "level0(" ++ s.driver.text ++ ")"
  | .high => "level1(" ++ s.driver.text ++ ")"

end Signal

/-- Signals are ordered by event, then by driver. -/
instance : Ord Signal := ⟨compareLex (compareOn fun s => s.event.rank) (compareOn Signal.driver)⟩

instance : TransOrd Signal :=
  inferInstanceAs (TransCmp (compareLex (compareOn fun s : Signal => s.event.rank)
    (compareOn Signal.driver)))

instance : LawfulEqOrd Signal where
  eq_of_compare {a b} h := by
    obtain ⟨he, hd⟩ := compareLex_eq_eq.1 h
    have he : compare a.event.rank b.event.rank = .eq := he
    have hd : compare a.driver b.driver = .eq := hd
    cases a; cases b
    have := Event.rank_inj (LawfulEqOrd.eq_of_compare he)
    have := LawfulEqOrd.eq_of_compare hd
    simp_all

/-! ## Links -/

/-- Where a link ends: at a numbered input of its target, or at the outside world. -/
inductive Pin where
  | input (i : Nat)
  | port
deriving DecidableEq, Repr, Inhabited

namespace Pin

/-- Inputs come in the order of their numbers, and the port after all of them. -/
def rank : Pin → List Nat
  | .input i => [0, i]
  | .port => [1]

theorem rank_inj {a b : Pin} (h : a.rank = b.rank) : a = b := by
  cases a <;> cases b <;> simp_all [rank]

end Pin

/-- A connection from a driver to one input of a gate, or to the outside world. -/
structure Link where
  source : GateId
  target : GateId
  pin : Pin
deriving DecidableEq, Repr, Inhabited

namespace Link

/-- The link from gate `source` to input `i` of gate `target`. -/
def edge (source target : GateId) (i : Nat) : Link := ⟨source, target, .input i⟩

/-- The link between a gate and the outside world. -/
def port (g : GateId) : Link := ⟨g, g, .port⟩

def isPort (l : Link) : Bool := l.pin == .port

def text (l : Link) : String :=
  match l.pin with
  | .port => "port(" ++ l.source.text ++ ")"
  | .input i => l.source.text ++ "->" ++ l.target.text ++ "[" ++ toString i ++ "]"

end Link

/-- Links are ordered by source, then by target, then by pin. -/
instance : Ord Link :=
  ⟨compareLex (compareOn Link.source)
    (compareLex (compareOn Link.target) (compareOn fun l => l.pin.rank))⟩

instance : TransOrd Link :=
  inferInstanceAs (TransCmp (compareLex (compareOn Link.source)
    (compareLex (compareOn Link.target) (compareOn fun l : Link => l.pin.rank))))

instance : LawfulEqOrd Link where
  eq_of_compare {a b} h := by
    obtain ⟨hs, h⟩ := compareLex_eq_eq.1 h
    obtain ⟨ht, hp⟩ := compareLex_eq_eq.1 h
    have hs : compare a.source b.source = .eq := hs
    have ht : compare a.target b.target = .eq := ht
    have hp : compare a.pin.rank b.pin.rank = .eq := hp
    cases a; cases b
    have := LawfulEqOrd.eq_of_compare hs
    have := LawfulEqOrd.eq_of_compare ht
    have := Pin.rank_inj (LawfulEqOrd.eq_of_compare hp)
    simp_all

/-! ## Finite sets and correspondences -/

/-- A correspondence between the gate identifiers of two netlists. -/
abbrev GateMap := TreeMap GateId GateId

abbrev GateSet := TreeSet GateId

abbrev LinkSet := TreeSet Link

end LogicNet
