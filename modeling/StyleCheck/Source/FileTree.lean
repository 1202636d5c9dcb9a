/-
File trees held in memory.

A tree lists its entries by the names on the way to them from the root, which is a directory; one directory is the
working directory, where paths begin that do not begin at the root. Paths are walked component by component as a file
system does it: a step needs a directory, even a step that stays, and a step up from the root stays there. A name has at
most 255 bytes, and a path at most 4095.
-/
import StyleCheck.Source.Load

namespace StyleCheck

/-- what is at a path -/
inductive Entry where
  | file (bytes : List UInt8)
  | directory
  /-- a device that reads as empty and keeps nothing -/
  | sink
  deriving DecidableEq, Repr

/-- entries by path, all but the root -/
structure FileTree where
  /-- names on the way to the working directory -/
  home : List Text
  entries : List (List Text × Entry)
  deriving DecidableEq, Repr

namespace FileTree

/-- largest name in bytes -/
def maxName : Nat := 255

/-- largest path in bytes -/
def maxPath : Nat := 4095

/-- the entry with these names on the way to it -/
def entry? (t : FileTree) (names : List Text) : Option Entry :=
  if names.isEmpty then some .directory else (t.entries.find? (·.1 = names)).map (·.2)

/-- put an entry at its place -/
def put (t : FileTree) (names : List Text) (e : Entry) : FileTree :=
  { t with entries := t.entries.filter (·.1 ≠ names) ++ [(names, e)] }

/-- put an entry at its place, with the directories on the way to it -/
def create (t : FileTree) (names : List Text) (e : Entry) : FileTree :=
  ((List.range names.length).foldl (fun t n =>
    if (t.entry? (names.take n)).isSome then t else t.put (names.take n) .directory) t).put names e

/-- an empty working directory on a machine that has a null device -/
def fresh : FileTree :=
  let home := ["tmp".toList, "work".toList]
  (FileTree.mk home []).create home .directory |>.create ["dev".toList, "null".toList] .sink

/-- what is in the working directory, by the names on the way from there -/
def homeEntries (t : FileTree) : List (List Text × Entry) :=
  (t.entries.filter fun e => t.home.isPrefixOf e.1 && e.1 ≠ t.home).map fun e => (e.1.drop t.home.length, e.2)

/-- where a path leads -/
inductive Target where
  | entry (names : List Text) (e : Entry)
  /-- to nothing, in a directory that exists -/
  | free (names : List Text)
  /-- to nothing -/
  | nowhere
  /-- through something that is no directory, or too long -/
  | refused
  deriving DecidableEq, Repr

/-- walk components from an entry -/
def walk (t : FileTree) (names : List Text) (e : Entry) : List Text → Target
  | [] => .entry names e
  | c :: cs =>
    match e with
    | .directory =>
      if c.isEmpty || c == ['.'] then walk t names .directory cs
      else if c = ['.', '.'] then walk t names.dropLast .directory cs
      else if maxName < Text.byteSize c then .refused
      else match t.entry? (names ++ [c]) with
        | some e' => walk t (names ++ [c]) e' cs
        | none => if cs.isEmpty then .free (names ++ [c]) else .nowhere
    | _ => .refused

/-- where a path leads; the empty path leads nowhere, and its length decides before anything on its way -/
def target (t : FileTree) (path : Text) : Target :=
  if '\x00' ∈ path then .refused
  else if maxPath < Text.byteSize path then .refused
  else if path.isEmpty then .nowhere
  else walk t (if path.head? = some '/' then [] else t.home) .directory (path.splitOn '/')

/-- read a path -/
def read (t : FileTree) (path : Text) : Reading :=
  match t.target path with
  | .entry _ (.file bs) => .bytes bs
  | .entry _ .directory => .unreadable
  | .entry _ .sink => .bytes []
  | .free _ => .missing
  | .nowhere => .missing
  | .refused => .unreadable

/-- write a text to a path, replacing the file there; a directory must exist already -/
def write? (t : FileTree) (path text : Text) : Option FileTree :=
  match t.target path with
  | .entry names (.file _) => some (t.put names (.file (Decoding.encode text)))
  | .entry _ .sink => some t
  | .free names => some (t.put names (.file (Decoding.encode text)))
  | _ => none

/-- load several paths in their order -/
def load (t : FileTree) (paths : List Text) : List Loaded := paths.map fun p => .ofReading p (t.read p)

end FileTree

end StyleCheck
