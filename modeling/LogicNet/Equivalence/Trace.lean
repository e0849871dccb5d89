import LogicNet.Fault
import LogicNet.Text.Piece
import LogicNet.Text.Shown

/-!
# Notes taken along the way

A check tells what it does. It does so by notes, which are data: a `Traced` value carries the notes
taken so far, also when it ends in a fault. What a note says is in `Note.text`, and how loudly in
`Note.level`.

Writing the formula of a failed check to a file is a note too. The check itself touches no file;
who plays the notes writes the file and reports how that went.
-/

namespace LogicNet

/-- How much a message matters. -/
inductive Level where
  | debug
  | warn
  | error
deriving DecidableEq, Repr

namespace Level

def text : Level → String
  | .debug => "DEBUG"
  | .warn => "WARN"
  | .error => "ERROR"

end Level

/-- A line of a log. -/
structure Message where
  level : Level
  text : String
deriving DecidableEq, Repr

namespace Message

def line (m : Message) : String := m.level.text ++ " " ++ m.text

/-- The message as a log shows it, with the end of its line. Further lines of a message are
indented. -/
def shown (m : Message) : String :=
  Text.shown ("\n    ".intercalate ((Text.cut (· == '\n') m.line.toList).map String.ofList) ++ "\n")

/-- The line of a log that tells the level of the message. -/
def heading (m : Message) : String := String.ofList (Text.firstLine m.shown.toList)

end Message

/-- The values of a left and a right gate. -/
abbrev ValuePair := Bool × Bool

/-- Pairs of values, written `0|1`. -/
def valuesText (values : List ValuePair) : String :=
  let digit (b : Bool) : String := if b then "1" else "0"
  ", ".intercalate (values.map fun (l, r) => digit l ++ "|" ++ digit r)

/-- What a check has to tell. -/
inductive Note where
  | miterRefused (r : Refusal)
  | simulatingMiter (words inputs : Nat)
  | miterSimulatedTrue
  | miterSatisfiable
  | checkingParts (count : Nat)
  | partsDiffer (left right : Nat)
  | cutTriggers (count : Nat)
  | encodedStates (count : Nat)
  | simulatingAll (inputs outputs : Nat)
  | solving (vars clauses : Nat)
  | differ
  | inputValues (values : List ValuePair)
  | outputValues (values : List ValuePair)
  /-- The formula of a failed check is to be written to a file. -/
  | dump (path dimacs : String)
  | checkFailed (r : Refusal)
deriving DecidableEq, Repr

namespace Note

def level : Note → Level
  | .miterRefused _ | .checkFailed _ => .error
  | .simulatingMiter .. | .checkingParts _ | .cutTriggers _ | .encodedStates _ | .simulatingAll ..
  | .solving .. => .debug
  | _ => .warn

def text : Note → String
  | .miterRefused r => "Unable to build the miter: " ++ r.message
  | .simulatingMiter words inputs =>
    "Simulating " ++ toString words ++ " words on a miter with " ++ toString inputs ++ " inputs"
  | .miterSimulatedTrue => "Miter output set by simulation: the netlists differ"
  | .miterSatisfiable => "Miter output can be set: the netlists differ"
  | .checkingParts count => "Checking " ++ toString count ++ " subnets separately"
  | .partsDiffer l r => "Subnets " ++ toString l ++ " and " ++ toString r ++ " differ"
  | .cutTriggers count => "Cut " ++ toString count ++ " triggers"
  | .encodedStates count =>
    "Checking through a state encoding of " ++ toString count ++ " triggers"
  | .simulatingAll inputs outputs =>
    "Simulating all patterns of " ++ toString inputs ++ " inputs on " ++ toString outputs
      ++ " outputs"
  | .solving vars clauses =>
    "Solving SAT problem with " ++ toString vars ++ " variables and " ++ toString clauses
      ++ " clauses"
  | .differ => "Netlists differ"
  | .inputValues values => "Inputs: " ++ valuesText values
  | .outputValues values => "Outputs: " ++ valuesText values
  | .dump path _ => "Failing formula written to " ++ path
  | .checkFailed r => "Equivalence check failed: " ++ r.message

def message (n : Note) : Message := ⟨n.level, n.text⟩

end Note

/-! ## Values with notes -/

/-- A result, and the notes taken before it was reached. -/
structure Traced (α : Type) where
  notes : List Note
  outcome : Result α

namespace Traced

variable {α β : Type}

/-- The value alone. -/
def ofResult (r : Result α) : Traced α := ⟨[], r⟩

/-- A note alone. -/
def note (n : Note) : Traced Unit := ⟨[n], .ok ()⟩

/-- One after the other. Notes stay, and nothing follows a fault. -/
def bind (x : Traced α) (f : α → Traced β) : Traced β :=
  match x.outcome with
  | .ok a =>
    let y := f a
    ⟨x.notes ++ y.notes, y.outcome⟩
  | .error e => ⟨x.notes, .error e⟩

instance : Monad Traced where
  pure a := ⟨[], .ok a⟩
  bind := bind

instance : MonadLift (Except Fault) Traced := ⟨ofResult⟩

/-- Stop with a breach unless the condition holds. -/
def require (condition : Bool) (b : Breach) : Traced Unit := ofResult (Result.require condition b)

/-- Stop with a breach. -/
def stop (b : Breach) : Traced α := ⟨[], .error (.breach b)⟩

/-- Answer a refusal; breaches pass. -/
def catchRefusal (x : Traced α) (f : Refusal → Traced α) : Traced α :=
  match x.outcome with
  | .error (.refusal r) =>
    let y := f r
    ⟨x.notes ++ y.notes, y.outcome⟩
  | _ => x

end Traced

end LogicNet
