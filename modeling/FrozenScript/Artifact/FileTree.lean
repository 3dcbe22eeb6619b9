import FrozenScript.Sink
import FrozenScript.Table

/-!
# File trees

The part of a file system that a build sees: files, directories and devices at locations. A path
leads to a location if everything in front of its last part is a directory and no part is too long.
The length that is told of a file need not be that of its contents, which may change at any time.
Writing may run out of room at any byte.
-/

namespace FrozenScript

/-- The names on the way from the root. -/
abbrev Location := List String

/-- What stands at a location. -/
inductive Node where
  | file (contents : ByteArray)
  | directory
  /-- A device reads as empty, and what is written to it goes into its sink. -/
  | device (sink : Sink)

namespace Node

/-- The length that is usually told of a node. Directories have one, too. -/
def length : Node → Nat
  | file contents => contents.size
  | directory => 4096
  | device _ => 0

/-- Read up to a number of bytes. A directory cannot be read, but nothing can be read of it. -/
def read? (count : Nat) : Node → Option ByteArray
  | file contents => some (contents.extract 0 count)
  | directory => if count = 0 then some .empty else none
  | device _ => some .empty

end Node

/-- The largest number that can be the length of something in memory. -/
def longestLength : Nat := 18446744073709551615

/-- The number of bytes of the longest buffer: half of the addresses. -/
def longestBuffer : Nat := 9223372036854775807

/-- Files, directories and devices. -/
structure FileTree where
  nodes : Table Location Node
  /-- The location that relative paths start from. -/
  workingDirectory : Location
  /-- How many bytes a file can take; `none` if there is no limit. -/
  room : Option Nat := none
  /-- The lengths that are told of what stands at some locations, instead of the usual ones; `none`
  if the length cannot be told. -/
  told : Table Location (Option Nat) := []
  /-- How many bytes of memory a buffer can take. -/
  memory : Nat := longestBuffer

namespace FileTree

/-- What stands at a location. The root is a directory. -/
def node? (tree : FileTree) (location : Location) : Option Node :=
  if location.isEmpty then some .directory else tree.nodes.get? location

/-- Whether a directory stands at a location. -/
def isDirectory (tree : FileTree) (location : Location) : Bool :=
  match tree.node? location with
  | some .directory => true
  | _ => false

/-- The number of bytes of the longest name. -/
def longestName : Nat := 255

/-- The number of bytes of the longest path. -/
def longestPath : Nat := 4095

/-- Put one more character in front of a list of names, which a slash divides. -/
def prepend (c : Char) (names : List (List Char)) : List (List Char) :=
  if c = '/' then [] :: names
  else
    match names with
    | [] => [[c]]
    | name :: rest => (c :: name) :: rest

/-- The names between the slashes of a path. -/
def splitPath (path : List Char) : List (List Char) :=
  path.foldr prepend [[]]

/-- The length that is told of a node at a location. -/
def length? (tree : FileTree) (location : Location) (node : Node) : Option Nat :=
  (tree.told.get? location).getD (some node.length)

/-- Follow names from a location. Every step starts from a directory; an empty name and a dot stay
there, and two dots lead to the directory around it. A name that is too long leads nowhere. -/
def follow (tree : FileTree) : Location → List String → Option Location
  | location, [] => some location
  | location, name :: rest =>
    if tree.isDirectory location ∧ name.utf8ByteSize ≤ longestName then
      let target :=
        if name = "" ∨ name = "." then location
        else if name = ".." then location.dropLast
        else location ++ [name]
      tree.follow target rest
    else none

/-- The location that a path leads to. A path with a null character leads nowhere. -/
def locate (tree : FileTree) (path : String) : Option Location :=
  let names := (splitPath path.toList).map String.ofList
  if path.isEmpty ∨ longestPath < path.utf8ByteSize ∨ '\x00' ∈ path.toList then none
  else if path.startsWith "/" then tree.follow [] names
  else tree.follow tree.workingDirectory names

/-- What a path leads to. -/
def at? (tree : FileTree) (path : String) : Option Node :=
  (tree.locate path).bind tree.node?

/-- Open a path for writing: a file that is there becomes empty, and a missing one is made. -/
def create (tree : FileTree) (path : String) : Option (Location × FileTree) := do
  let location ← tree.locate path
  match tree.node? location with
  | some .directory => none
  | some (.device _) => some (location, tree)
  | some (.file _) | none =>
    some (location, { tree with nodes := tree.nodes.set location (.file .empty) })

/-- Write to an open location, and say whether all bytes were taken. -/
def write (tree : FileTree) (location : Location) (bytes : ByteArray) : Bool × FileTree :=
  match tree.node? location with
  | some (.file contents) =>
    let sink : Sink := { written := contents, room := tree.room }
    (sink.fits bytes.size,
      { tree with nodes := tree.nodes.set location (.file (sink.write bytes).written) })
  | some (.device sink) =>
    (sink.fits bytes.size,
      { tree with nodes := tree.nodes.set location (.device (sink.write bytes)) })
  | some .directory | none => (false, tree)

/-- Remove what a path leads to, if it is a file. -/
def discard (tree : FileTree) (path : String) : FileTree :=
  match tree.locate path with
  | none => tree
  | some location =>
    match tree.node? location with
    | some (.file _) => { tree with nodes := tree.nodes.erase location }
    | _ => tree

/-- Let go of an output: unless it is committed, its file is removed. -/
def release (tree : FileTree) (path : String) (committed : Bool) : FileTree :=
  if committed then tree else tree.discard path

end FileTree

end FrozenScript
