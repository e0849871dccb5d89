import LogicNet.Command.Arguments
import LogicNet.Design.Binding
import LogicNet.Design.Report
import LogicNet.Netlist.Tally
import LogicNet.Storage.Journal
import LogicNet.Storage.Netlist

/-!
# Running commands

A command is a function on a directory: it answers with an exit code, with what it prints, with a
log, and with the directory it leaves.

The exit code is 0 for success and for equivalent designs, 1 for designs that differ or that could
not be compared, and 2 for a command line without a meaning or a file that cannot be used. A breach
ends a command with 101.
-/

namespace LogicNet

/-- What a command leaves behind. -/
structure Outcome where
  code : Nat := 0
  /-- What is printed. -/
  output : String := ""
  log : List Message := []
  directory : Directory

/-- An exit code and what is printed. -/
structure Reply where
  code : Nat := 0
  output : String := ""
deriving DecidableEq, Repr

namespace Reply

/-- An exit code with printed lines. -/
def lines (code : Nat) (ls : List String) : Reply :=
  { code, output := String.join (ls.map (· ++ "\n")) }

end Reply

namespace Outcome

/-- A breach ends a command. -/
def ofBreach (d : Directory) (log : List Message) : Outcome := { code := 101, log, directory := d }

/-- An error message and an exit code. -/
def ofError (d : Directory) (code : Nat) (text : String) : Outcome :=
  { code, log := [⟨.error, text⟩], directory := d }

/-- Play notes. The log of a command does not show messages for debugging. -/
def played (d : Directory) (notes : List Note) : List Message × Directory :=
  let (log, d) := d.play notes
  (log.filter (·.level != .debug), d)

/-- Play the notes of a reply. A refusal that nobody answered fails the command. -/
def ofTraced (d : Directory) (t : Traced Reply) : Outcome :=
  let (log, d) := played d t.notes
  match t.outcome with
  | .ok reply => { code := reply.code, output := reply.output, log, directory := d }
  | .error (.refusal _) => { code := 1, log, directory := d }
  | .error (.breach _) => ofBreach d log

end Outcome

namespace Command

/-- Go on with a design from a file. -/
def withDesign (d : Directory) (path : String) (next : Design → Outcome) : Outcome :=
  match d.readDesign path with
  | .ok design => next design
  | .error (.refusal r) => .ofError d 2 ("Unable to read " ++ path ++ ": " ++ r.message)
  | .error (.breach _) => .ofBreach d []

/-- Show what a design is made of. -/
def runTally (design : Design) : Reply :=
  .lines 0 ["Netlist stats:", design.net.tally.text, "", ""]

/-- The answer to a verdict. -/
def verdictReply (left : Design) (hints : Hints) : Verdict → Reply
  | .equal => .lines 0 ["Netlists are equivalent"]
  | .different c =>
    .lines 1 ("Netlists are not equivalent"
      :: left.report (hints.sources.getD {}) (hints.targets.getD {}) c)

/-- Compare two designs by the checker. -/
def runCheck (checker : Checker) (left right : Design) (hints : Hints) : Traced Reply :=
  (do return verdictReply left hints (← checker.check left.net right.net hints)).catchRefusal
    fun r => do
      Traced.note (.checkFailed r)
      return { code := 1 }

/-- The answer to a simulation. -/
def simulationReply : Equivalence → Reply
  | .equal => .lines 0 ["Netlists are equivalent"]
  | .different => .lines 1 ["Netlists are not equivalent"]
  | .unknown =>
    .lines 1 ["No difference found by random simulation, but equivalence is not proven"]

/-- The answer to designs that cannot be paired. -/
def unpairedReply (reason : String) : Reply :=
  .lines 1 [reason ++ ". Netlists are not equivalent"]

/-- Compare two designs by simulating their miter. -/
def runRandom (left right : Design) (hints : Hints) : Traced Reply :=
  if left.net.isCombinational && right.net.isCombinational then
    (do
      let net ← LogicNet.miter left.net right.net hints
      return simulationReply (← RandomCheck.check {} net)).catchRefusal
        fun r => return unpairedReply r.message
  else return .lines 1 ["Random checking is only available for combinatorial netlists"]

/-- Compare two designs. -/
def runCompare (method : Method) (checker : Checker) (left right : Design) : Traced Reply :=
  match left.bindByName right with
  | .error m => return unpairedReply m.message
  | .ok hints =>
    match method with
    | .proof => runCheck checker left right hints
    | .simulation => runRandom left right hints

/-- Write the miter of two designs. -/
def runMiter (d : Directory) (output : String) (left right : Design) : Outcome :=
  match left.bindByName right with
  | .error m => .ofError d 1 m.message
  | .ok hints =>
    let t := LogicNet.miter left.net right.net hints
    let (log, d) := Outcome.played d t.notes
    match t.outcome with
    | .error (.refusal _) => { code := 1, log, directory := d }
    | .error (.breach _) => .ofBreach d log
    | .ok net =>
      match d.writeNetlist output net left.symbols with
      | (.ok (), d) => { log, directory := d }
      | (.error (.refusal r), d) =>
        { code := 2, directory := d
          log := log ++ [⟨.error, "Unable to write " ++ output ++ ": " ++ r.message⟩] }
      | (.error (.breach _), d) => .ofBreach d log

/-- Run a command in a directory. -/
def run (d : Directory) : Command → Outcome
  | .tally file => withDesign d file fun design => .ofTraced d (return runTally design)
  | .compare left right method checker =>
    withDesign d left fun a => withDesign d right fun b =>
      .ofTraced d (runCompare method checker a b)
  | .miter left right output =>
    withDesign d left fun a => withDesign d right fun b => runMiter d output a b

/-- Run a command line in a directory. -/
def execute (d : Directory) (args : List String) : Outcome :=
  match parse? args with
  | some c => c.run d
  | none => { code := 2, directory := d }

end Command

end LogicNet
