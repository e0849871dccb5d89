import LogicNet.Fault
import LogicNet.Storage.Path

/-!
# Directories

Commands work in a directory, which is a value: files, and the places of the directories inside.
Reading and writing are functions on it.

Every part of a path before its last name must lead to a directory, also where a later part goes up
again: `x/../a` is a path to `a` only if there is a directory `x`. A file can only be written where
its directory exists, and directories are never made. A path to read may have slashes at its end
only if it leads to a directory; a path to write is taken for that of a directory if it has slashes
at its end.
-/

namespace LogicNet

open Std

/-- Files and the directories they may be in. -/
structure Directory where
  /-- The files by the texts of their places. -/
  files : TreeMap String ByteArray := {}
  /-- The directories inside. -/
  folders : List Place := []

namespace Directory

/-- A name has at most this number of bytes. -/
def longestName : Nat := 255

/-- A path has at most this number of bytes. -/
def longestPath : Nat := 4095

/-- There is a directory at a place. -/
def isFolder (d : Directory) (p : Place) : Bool := p.isAround || d.folders.contains p

/-- The place of a name in a directory. -/
def child (folder : Place) (name : String) : Except StorageError Place :=
  if longestName < name.utf8ByteSize then .error .longName else .ok (folder.step name)

/-- Follow one part of a path, which has to lead to a directory. -/
def enter (d : Directory) (folder : Place) (part : String) : Except StorageError Place := do
  let p ← child folder part
  if d.isFolder p then return p
  if d.files.contains p.text then throw .notDirectory
  throw .notFound

/-- Follow a path to its last name. -/
def follow (d : Directory) (path : String) (way : List String) : Except StorageError Place := do
  if path.toList.contains '\x00' then throw .zeroByte
  if path.isEmpty then throw .notFound
  if longestPath < path.utf8ByteSize then throw .longName
  way.foldlM d.enter (Path.origin path)

/-- The bytes of a file. -/
def read (d : Directory) (path : String) : Except StorageError ByteArray := do
  match Path.ending path with
  | .direction way =>
    let _ ← d.follow path way
    throw .isDirectory
  | .name way name slash =>
    let p ← child (← d.follow path way) name
    if d.isFolder p then throw .isDirectory
    match d.files[p.text]? with
    | some bytes => if slash then throw .notDirectory else return bytes
    | none => throw .notFound

/-- Write a file, which replaces what was there. -/
def write (d : Directory) (path : String) (bytes : ByteArray) : Except StorageError Directory := do
  match Path.ending path with
  | .direction way =>
    let _ ← d.follow path way
    throw .isDirectory
  | .name way name slash =>
    let folder ← d.follow path way
    if slash then throw .isDirectory
    let p ← child folder name
    if d.isFolder p then throw .isDirectory
    return { d with files := d.files.insert p.text bytes }

end Directory

end LogicNet
