import LogicNet.Text.Piece

/-!
# Paths

A path is a text of parts between slashes. It is followed from a directory, part by part: an empty
part and a single dot STAY where they are, two dots go UP one directory, and any other part is a
name, which goes DOWN.

Where that leads is a `Place`. Places are lists of names from the working directory, so `./a` and
`a` lead to one place. A path can leave the working directory: a place may start with steps up, or
at the root of all directories.
-/

namespace LogicNet

/-- The names that lead somewhere from the working directory. Two dots in front of them are a step
up, and an empty name in front of them is the root of all directories. -/
abbrev Place := List String

namespace Place

/-- One directory up. The root has none above it. -/
def up (p : Place) : Place :=
  match p.getLast? with
  | none | some ".." => p ++ [".."]
  | some "" => p
  | some _ => p.dropLast

/-- Where one part of a path leads from a place. -/
def step (p : Place) : String → Place
  | "" | "." => p
  | ".." => p.up
  | name => p ++ [name]

/-- A path that leads to the place. -/
def text (p : Place) : String := "/".intercalate p

/-- The working directory, a directory around it, or the root. These are always there. -/
def isAround (p : Place) : Bool := p == [""] || p.all (· == "..")

end Place

namespace Path

/-- What is between the slashes. -/
def parts (path : String) : List String := (Text.cut (· == '/') path.toList).map String.ofList

/-- Where a path starts. -/
def origin (path : String) : Place := if path.startsWith "/" then [""] else []

/-- The part leads to a directory, if it leads anywhere. -/
def isDirection (part : String) : Bool := part == "" || part == "." || part == ".."

/-- All places that a path names on its way, whether or not something is there. -/
def places (path : String) : List Place :=
  ((parts path).foldl (fun (p, ps) part => (p.step part, p.step part :: ps)) (origin path, [])).2

/-- How a path ends. -/
inductive Ending where
  /-- With a direction: the whole path leads to a directory. -/
  | direction (way : List String)
  /-- With a name in the directory that the parts before it lead to. Slashes after the name ask for
  a directory of that name. -/
  | name (way : List String) (name : String) (slash : Bool)
deriving DecidableEq, Repr

/-- The end of a path. -/
def ending (path : String) : Ending :=
  let reversed := (parts path).reverse
  let slash := reversed.head? == some "" && 1 < reversed.length
  match reversed.dropWhile (· == "") with
  | [] => .direction []
  | part :: way =>
    if isDirection part then .direction (part :: way).reverse else .name way.reverse part slash

/-- What follows the last dot of the last name. A name that starts with its only dot has no
extension, and a path that ends with a step up has no last name. -/
def extension? (path : String) : Option String :=
  match ((parts path).filter fun p => p != "" && p != ".").getLast? with
  | none | some ".." => none
  | some name =>
    match (Text.cut (· == '.') name.toList).reverse with
    | _ :: [[]] => none
    | last :: _ :: _ => some (String.ofList last)
    | _ => none

end Path

end LogicNet
