import LogicNet.Fault
import LogicNet.Text.Capital
import LogicNet.Text.Line

/-!
# Statements of a netlist text

A text in the format of the ISCAS benchmarks has one statement on a line:

* `INPUT(a)` and `OUTPUT(y)` declare ports by name;
* `y = KIND(a, b)` defines a gate, and `y = KIND` one without operands;
* empty lines and lines that start with `#` say nothing.

The punctuation only separates: what counts are the pieces between, so parentheses may be missing
or repeated. A line with an equals sign is a definition, and any other line a declaration.
-/

namespace LogicNet

namespace Bench

/-- A named gate, its kind as written, and the names of its operands. -/
structure Definition where
  name : String
  kind : String
  operands : List String
deriving DecidableEq, Repr

/-- A line that says something. -/
inductive Statement where
  | input (name : String)
  | output (name : String)
  | gate (d : Definition)
deriving DecidableEq, Repr

namespace Statement

/-- A line without equals sign declares a port. -/
def declaration (line : List Char) : Except ParseError Statement :=
  match Text.pieces ['(', ')'] line with
  | [keyword, name] =>
    if keyword ∈ ["INPUT", "PINPUT"] then .ok (.input name)
    else if keyword ∈ ["OUTPUT", "POUTPUT"] then .ok (.output name)
    else .error (.keyword keyword)
  | _ => .error (.statement (String.ofList line))

/-- A line with an equals sign defines a gate. -/
def definition (line : List Char) : Except ParseError Statement :=
  match Text.pieces ['=', '(', ',', ')'] line with
  | name :: kind :: operands => .ok (.gate ⟨name, kind, operands⟩)
  | _ => .error (.statement (String.ofList line))

/-- The statement of a line, `none` for a line that says nothing. -/
def ofLine (line : List Char) : Except ParseError (Option Statement) :=
  match Text.trim line with
  | [] => .ok none
  | '#' :: _ => .ok none
  | line => some <$> if line.contains '=' then definition line else declaration line

def input? : Statement → Option String
  | .input name => some name
  | _ => none

def output? : Statement → Option String
  | .output name => some name
  | _ => none

def gate? : Statement → Option Definition
  | .gate d => some d
  | _ => none

end Statement

/-- Statement of a line of bytes. -/
def statementOfBytes (line : ByteArray) : Result (Option Statement) :=
  match Text.decode? line with
  | none => .error (.refusal (.storage .invalidText))
  | some line =>
    match Statement.ofLine line with
    | .ok s => .ok s
    | .error e => .error (.refusal (.parse e))

/-- The statements of a file. The first line that cannot be read decides on the refusal. -/
def statements (bytes : ByteArray) : Result (List Statement) := do
  return ((← (Text.lines bytes).mapM statementOfBytes).filterMap id)

/-! ## Kinds -/

namespace Definition

/-- The function that the kind stands for, in any case; `none` for a cell without a meaning. -/
def fn? (d : Definition) : Option GateFn :=
  match Text.capitals d.kind with
  | "DFF" => some .flipFlop
  | "BUF" | "BUFF" => some .buffer
  | "NOT" => some .not
  | "VDD" => some .one
  | "GND" | "VSS" => some .zero
  | "AND" => some .and
  | "NAND" => some .nand
  | "OR" => some .or
  | "NOR" => some .nor
  | "XOR" => some .xor
  | "XNOR" => some .xnor
  | "MAJ" => some .majority
  | _ => none

/-- Can a function be written with this number of operands? The clock of a flip-flop is not one of
them. -/
def acceptsOperands : GateFn → Nat → Bool
  | .flipFlop, n | .buffer, n | .not, n => n == 1
  | .one, n | .zero, n => n == 0
  | .majority, n => n % 2 == 1
  | _, n => 1 ≤ n

/-- The kind takes this many operands. Any number will do for a cell without a meaning. -/
def hasArity (d : Definition) : Bool :=
  match d.fn? with
  | some fn => acceptsOperands fn d.operands.length
  | none => true

end Definition

end Bench

end LogicNet
