import LogicNet.Gate.Basic

/-!
# Faults

An operation of the library fails in one of two ways.

* A REFUSAL is an answer: the netlists cannot be combined, the text cannot be read, the file is not
  there. Callers handle it, and a command turns it into a message and an exit code.
* A BREACH is a broken promise: the caller named a gate that is not there, asked for the order of a
  netlist with a loop, or ran past a machine limit. Nothing handles a breach; it ends the command.

Both are causes and not texts. The wording of every cause is in `Refusal.message` and
`Breach.message`, and nowhere else.
-/

namespace LogicNet

/-! ## Refusals -/

/-- Why a netlist text cannot be read. -/
inductive ParseError where
  /-- A line that is no statement at all. -/
  | statement (line : String)
  /-- A declaration that is neither of an input nor of an output. -/
  | keyword (word : String)
  | definedTwice (name : String)
  | undefinedName (name : String)
  | arity (name : String) (count : Nat) (kind : String)
deriving DecidableEq, Repr

namespace ParseError

def message : ParseError → String
  | .statement line => "invalid statement " ++ line
  | .keyword word => "unknown keyword " ++ word
  | .definedTwice name => name ++ " is defined twice"
  | .undefinedName name => "gate input " ++ name ++ " is not generated anywhere"
  | .arity name count kind =>
    name ++ " has " ++ toString count ++ " inputs, which is invalid for " ++ kind

end ParseError

/-- What a file format has no way to say. -/
inductive Unsupported where
  | noExtension (path : String)
  | unknownExtension (extension : String)
  /-- A flip-flop whose clock is not the constant one. -/
  | clockedFlipFlop (id : GateId)
  | gate (g : Gate)
deriving DecidableEq, Repr

namespace Unsupported

def message : Unsupported → String
  | .noExtension path => "no extension given for " ++ path
  | .unknownExtension extension => "unknown extension " ++ extension
  | .clockedFlipFlop id => "flip-flop " ++ id.text ++ " with a clock signal"
  | .gate g => "gate " ++ g.text

end Unsupported

/-- Why a file cannot be used. -/
inductive StorageError where
  | notFound
  | isDirectory
  | notDirectory
  /-- A name or a path is too long. -/
  | longName
  /-- A path holds the character zero. -/
  | zeroByte
  /-- The bytes of a line are not UTF-8. -/
  | invalidText
deriving DecidableEq, Repr

namespace StorageError

def message : StorageError → String
  | .notFound => "No such file or directory (os error 2)"
  | .isDirectory => "Is a directory (os error 21)"
  | .notDirectory => "Not a directory (os error 20)"
  | .longName => "File name too long (os error 36)"
  | .zeroByte => "file name contained an unexpected NUL byte"
  | .invalidText => "stream did not contain valid UTF-8"

end StorageError

/-- A failure that callers handle. -/
inductive Refusal where
  /-- The netlists of a miter have different numbers of inputs. -/
  | inputCounts (left right : Nat)
  /-- The netlists of a miter have different numbers of outputs. -/
  | outputCounts (left right : Nat)
  | unboundSource (link : Link)
  | unboundTarget (link : Link)
  | solver (reason : String)
  | parse (e : ParseError)
  | unsupported (e : Unsupported)
  | storage (e : StorageError)
deriving DecidableEq, Repr

namespace Refusal

def message : Refusal → String
  | .inputCounts l r =>
    "netlists have different numbers of inputs: " ++ toString l ++ " vs " ++ toString r
  | .outputCounts l r =>
    "netlists have different numbers of outputs: " ++ toString l ++ " vs " ++ toString r
  | .unboundSource link => "source link " ++ link.text ++ " is not bound"
  | .unboundTarget link => "target link " ++ link.text ++ " is not bound"
  | .solver reason => "SAT solver failure: " ++ reason
  | .parse e => "parse error: " ++ e.message
  | .unsupported e => "unsupported in this format: " ++ e.message
  | .storage e => e.message

end Refusal

/-! ## Breaches -/

/-- A broken promise of the caller. -/
inductive Breach where
  /-- A number left its machine range. -/
  | overflow
  /-- A position past the end of a list. -/
  | outOfRange
  /-- A list that no memory could hold. -/
  | capacity
  /-- A gate without image in a correspondence. -/
  | missingKey
  | missingGate (id : GateId)
  | invalidGate (g : Gate)
  | drivingOutput (id : GateId)
  | missingPart (number : Nat)
  | selfMerge (number : Nat)
  | mergedParts
  | nothingToGroup
  | malformedCopy
  | malformedOrder
  | loop
  | loopInPart (number : Nat)
  | tooManySymbols
  /-- A sample or a parity chain over no operands. -/
  | noOperands
  /-- A majority over an even number of operands. -/
  | evenMajority
  /-- The draws allowed to a random sample ran out. -/
  | outOfDraws
  | unsimulatedGate (g : Gate)
  | unsimulatedOutput (id : GateId)
  /-- A step with another number of values than there are input pins. -/
  | stepWidth
  | sequentialStep
  | unencodedGate (g : Gate)
  | noModel
  /-- A clause over a variable that no solver takes. -/
  | largeVariable
  /-- A literal over a variable without a number. -/
  | unnumberedVariable
  /-- A literal over a variable whose number cannot be written. -/
  | unwritableVariable
  | noCounterpart (id : GateId)
  | noBindings
  | sourceCounts
  | unboundSources
  | unboundTargets
  | mixedKinds
  | noStateBinding
  | flatHierarchy
  | partCounts
  | unboundParts
  | noInnerBinding
  | unboundBoundary (link : Link) (number : Nat)
  | triggerFunctions (left right : GateId)
  | triggerArities (left right : GateId)
  | sequentialMiter
  | miterOutputs
deriving DecidableEq, Repr

namespace Breach

def message : Breach → String
  | .overflow => "arithmetic overflow"
  | .outOfRange => "index out of bounds"
  | .capacity => "capacity overflow"
  | .missingKey => "missing key"
  | .missingGate id => "Gate " ++ id.text ++ " is not in the netlist"
  | .invalidGate g => "Invalid gate " ++ g.detail
  | .drivingOutput id => "Output gate " ++ id.text ++ " cannot drive other gates"
  | .missingPart n => "Subnet " ++ toString n ++ " does not exist"
  | .selfMerge n => "Cannot merge subnet " ++ toString n ++ " with itself"
  | .nothingToGroup => "Orphans can only be grouped in a netlist with subnets"
  | .malformedCopy => "Cannot copy a netlist with orphans or empty subnets"
  | .malformedOrder => "Only well-formed netlists can be sorted"
  | .loop => "Unable to find a valid topological sort: there must be a combinatorial loop"
  | .loopInPart n =>
    "Unable to find a valid topological sort of subnet " ++ toString n ++
      ": there must be a combinatorial loop"
  | .tooManySymbols => "Too many custom gate symbols"
  | .mergedParts | .noOperands | .evenMajority | .stepWidth | .sequentialStep | .largeVariable
  | .partCounts => "assertion failed"
  | .outOfDraws => "Random draws exhausted"
  | .unsimulatedGate g => "Unsupported gate " ++ g.detail ++ " for simulation"
  | .unsimulatedOutput id => "Output " ++ id.text ++ " is not part of the simulated netlist"
  | .unencodedGate g => "Unsupported gate " ++ g.detail ++ " for encoding"
  | .unnumberedVariable => "variable index too high"
  | .unwritableVariable => "variable index too high to fit in c_int: TryFromIntError(PosOverflow)"
  | .noModel => "No model available: the formula was not solved or is unsatisfiable"
  | .noCounterpart id => "Gate " ++ id.text ++ " has no counterpart"
  | .noBindings => "Equivalence checking requires the source and target bindings"
  | .sourceCounts => "Netlists must have the same number of sources"
  | .unboundSources => "Unbound sources"
  | .unboundTargets => "Unbound targets"
  | .mixedKinds => "Cannot compare a combinatorial netlist to a sequential one"
  | .noStateBinding =>
    "Unimplemented equivalence check for sequential netlists without trigger binding or state encoding"
  | .flatHierarchy => "Hierarchical check of flat netlists"
  | .unboundParts => "Every subnet must be bound"
  | .noInnerBinding => "Hierarchical checking requires the inner binding"
  | .unboundBoundary l n =>
    "Boundary link " ++ l.text ++ " of subnet " ++ toString n ++ " is not bound"
  | .triggerFunctions l r =>
    "Bound triggers " ++ l.text ++ " and " ++ r.text ++ " have different functions"
  | .triggerArities l r =>
    "Bound triggers " ++ l.text ++ " and " ++ r.text ++ " have different arities"
  | .sequentialMiter => "Random checking requires a combinatorial miter"
  | .miterOutputs => "A miter must have exactly one output"

end Breach

/-! ## Faults -/

/-- Any failure. -/
inductive Fault where
  | refusal (r : Refusal)
  | breach (b : Breach)
deriving DecidableEq, Repr

namespace Fault

def message : Fault → String
  | .refusal r => r.message
  | .breach b => b.message

end Fault

instance : Coe Refusal Fault := ⟨.refusal⟩

instance : Coe Breach Fault := ⟨.breach⟩

/-- A value, or the fault that stands in its way. -/
abbrev Result (α : Type) := Except Fault α

namespace Result

/-- Stop with a breach unless the condition holds. -/
def require (condition : Bool) (b : Breach) : Result Unit :=
  if condition then .ok () else .error (.breach b)

/-- Stop unless `count` items of `size` bytes each can be addressed. -/
def requireRoom (count size : Nat) : Result Unit := require (count * size < 1 <<< 63) .capacity

/-- The value of an option whose absence is a breach. -/
def getOrBreach {α : Type} (x : Option α) (b : Breach) : Result α :=
  match x with
  | some a => .ok a
  | none => .error (.breach b)

end Result

end LogicNet
