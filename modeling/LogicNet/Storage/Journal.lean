import LogicNet.Equivalence.Trace
import LogicNet.Storage.Directory

/-!
# Playing notes

The notes of a check become messages. A note that asks for a formula to be written is the only one
that does something: the file is written, and the message says how that went.
-/

namespace LogicNet

namespace Directory

/-- Play one note. -/
def playNote (d : Directory) (n : Note) : Message × Directory :=
  match n with
  | .dump path dimacs =>
    match d.write path dimacs.toUTF8 with
    | .ok d => (n.message, d)
    | .error e => (⟨.error, "Unable to write " ++ path ++ ": " ++ e.message⟩, d)
  | _ => (n.message, d)

/-- Play notes in order: the messages, and the directory they leave. -/
def play (d : Directory) : List Note → List Message × Directory
  | [] => ([], d)
  | n :: rest =>
    let (m, d) := d.playNote n
    let (ms, d) := d.play rest
    (m :: ms, d)

end Directory

end LogicNet
