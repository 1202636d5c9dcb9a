/-
Kinds of sources and paths.

A path is a text whose components are separated by slashes; empty components and single dots name nothing. What a source
is follows from the extension of its last component.
-/
import StyleCheck.Text.Basic

namespace StyleCheck

namespace Path

/-- the components of a path that name something -/
def names (path : Text) : List Text := (path.splitOn '/').filter fun c => !(c.isEmpty || c == ['.'])

/-- what stands behind the last dot of a name that has something in front of it -/
def nameExtension? (name : Text) : Option Text :=
  match Text.cut? '.' name.reverse with
  | some (after, before) => if before.isEmpty then none else some after.reverse
  | none => none

/-- extension of the last component; a step up has none -/
def extension? (path : Text) : Option Text :=
  match (names path).getLast? with
  | some name => if name = ['.', '.'] then none else nameExtension? name
  | none => none

/-- `name` in the directory `dir` -/
def join (dir name : Text) : Text :=
  if dir.isEmpty || dir.getLast? == some '/' then dir ++ name else dir ++ '/' :: name

end Path

/-- what a source is taken for -/
inductive SourceKind where
  | stylesheet
  /-- a script or markup, which may name what stylesheets define -/
  | script
  | unknown
  deriving DecidableEq, Repr

namespace SourceKind

/-- extensions of scripts and markup -/
def scriptExtensions : List Text :=
  ["js".toList, "mjs".toList, "cjs".toList, "jsx".toList, "ts".toList, "tsx".toList, "html".toList, "htm".toList,
    "vue".toList, "svelte".toList]

/-- the kind of an extension in any case -/
def ofExtension (extension : Text) : SourceKind :=
  let e := Text.lower extension
  if e = "css".toList then .stylesheet
  else if scriptExtensions.contains e then .script
  else .unknown

def ofPath (path : Text) : SourceKind := ((Path.extension? path).map ofExtension).getD .unknown

end SourceKind

end StyleCheck
