import LogicNet.Equivalence.Checker

/-!
# Command lines

A command line is a command and its arguments: operands in order, and options with a value, in any
order between them. The value of an option is the next argument, or is attached to the name:

* `--dump file`, `--dump=file`;
* `-o file`, `-ofile`, `-o=file`.

A next argument that looks like an option is no value. After `--` everything is an operand, and a
single `-` is one anywhere. Each option is given at most once.

A command line that is none of this has no meaning, whatever is wrong with it.
-/

namespace LogicNet

/-! ## Arguments -/

/-- The names of an option. -/
structure OptionName where
  long : String
  short : Option Char := none
deriving DecidableEq, Repr

/-- Arguments in order of their roles. Options are listed under their long names. -/
structure Arguments where
  operands : List String := []
  options : List (String × String) := []
deriving DecidableEq, Repr

namespace Arguments

/-- What a single argument is. -/
inductive Role where
  | operand
  /-- An option whose value is the next argument. -/
  | detached (name : String)
  | attached (name value : String)
  | unknown
deriving DecidableEq, Repr

/-- A name after two dashes, up to the first equals sign. -/
def longRole (known : List OptionName) (cs : List Char) : Role :=
  let name := String.ofList (cs.takeWhile (· != '='))
  if known.any (·.long == name) then
    match cs.dropWhile (· != '=') with
    | [] => .detached name
    | _ :: value => .attached name (String.ofList value)
  else .unknown

/-- A letter after a dash. -/
def shortRole (known : List OptionName) (c : Char) (cs : List Char) : Role :=
  match known.find? (·.short == some c) with
  | none => .unknown
  | some o =>
    match cs with
    | [] => .detached o.long
    | '=' :: value => .attached o.long (String.ofList value)
    | value => .attached o.long (String.ofList value)

def role (known : List OptionName) (arg : String) : Role :=
  match arg.toList with
  | '-' :: '-' :: cs => longRole known cs
  | '-' :: c :: cs => shortRole known c cs
  | _ => .operand

/-- The argument starts with a dash and is more than one. -/
def looksLikeOption (arg : String) : Bool :=
  match arg.toList with
  | '-' :: _ :: _ => true
  | _ => false

def addOperand (a : Arguments) (operand : String) : Arguments :=
  { a with operands := operand :: a.operands }

/-- Add an option that is not there yet. -/
def addOption? (a : Arguments) (name value : String) : Option Arguments :=
  if a.options.any (·.1 == name) then none
  else some { a with options := (name, value) :: a.options }

/-- Sort arguments into operands and options. -/
def scan? (known : List OptionName) : List String → Option Arguments
  | [] => some {}
  | arg :: rest =>
    if arg = "--" then some { operands := rest }
    else
      match role known arg with
      | .operand => (scan? known rest).map (·.addOperand arg)
      | .attached name value => do (← scan? known rest).addOption? name value
      | .detached name =>
        match rest with
        | [] => none
        | value :: rest =>
          if looksLikeOption value then none
          else do (← scan? known rest).addOption? name value
      | .unknown => none

end Arguments

/-! ## Values -/

/-- A 64-bit number in decimal digits, with a plus sign at most. -/
def size? (text : String) : Option Nat :=
  let digits := match text.toList with
    | '+' :: cs => cs
    | cs => cs
  if !digits.isEmpty && digits.all Char.isDigit then
    let n := digits.foldl (fun n c => 10 * n + (c.toNat - '0'.toNat)) 0
    if n < 1 <<< 64 then some n else none
  else none

/-- A path has at least one character. -/
def path? (text : String) : Option String := if text.isEmpty then none else some text

/-! ## Commands -/

/-- How two designs are compared. -/
inductive Method where
  /-- By the checker, which decides. -/
  | proof
  /-- By simulation of the miter. -/
  | simulation
deriving DecidableEq, Repr

/-- What a command line asks for. -/
inductive Command where
  /-- Show the tally of a design. -/
  | tally (file : String)
  /-- Compare two designs. -/
  | compare (left right : String) (method : Method) (checker : Checker)
  /-- Write the miter of two designs. -/
  | miter (left right output : String)

namespace Command

def method? : String → Option Method
  | "default" => some .proof
  | "rnd" => some .simulation
  | _ => none

/-- There is one solver. -/
def solver? : String → Option Unit
  | "varisat" => some ()
  | _ => none

/-- The value of an option: its default if it is absent, `none` if it cannot be read. -/
def option? {α : Type} (a : Arguments) (name : String) (default : α) (read : String → Option α) :
    Option α :=
  match a.options.lookup name with
  | none => some default
  | some text => read text

def tally? (args : List String) : Option Command := do
  match ← Arguments.scan? [] args with
  | ⟨[file], _⟩ => return .tally (← path? file)
  | _ => none

def compare? (args : List String) : Option Command := do
  let known := ["checker", "solver", "sim-bound", "flat-bound", "dump"].map fun n => ⟨n, none⟩
  let a ← Arguments.scan? known args
  match a.operands with
  | [left, right] =>
    let left ← path? left
    let right ← path? right
    let method ← option? a "checker" .proof method?
    option? a "solver" () solver?
    let standard : Checker := {}
    let simBound ← option? a "sim-bound" standard.simBound size?
    let flatBound ← option? a "flat-bound" standard.flatBound size?
    let dump ← option? a "dump" none fun text => some <$> path? text
    return .compare left right method { simBound, flatBound, dump }
  | _ => none

def miter? (args : List String) : Option Command := do
  let a ← Arguments.scan? [⟨"output", some 'o'⟩] args
  match a.operands with
  | [left, right] => return .miter (← path? left) (← path? right) (← path? (← a.options.lookup "output"))
  | _ => none

/-- The command of a command line. -/
def parse? : List String → Option Command
  | "show" :: args => tally? args
  | "check-equivalence" :: args | "equiv" :: args => compare? args
  | "miter" :: args => miter? args
  | _ => none

/-- The files a command reads. -/
def reads : Command → List String
  | .tally file => [file]
  | .compare left right _ _ | .miter left right _ => [left, right]

/-- The files a command may write. -/
def writes : Command → List String
  | .tally _ => []
  | .compare _ _ _ checker => checker.dump.toList
  | .miter _ _ output => [output]

end Command

end LogicNet
