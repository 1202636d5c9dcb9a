/-
Loading sources.

Loading never fails: what cannot be read is an empty text with a status that says so.
-/
import StyleCheck.Source.Kind
import StyleCheck.Source.Decoding

namespace StyleCheck

/-- what reading a path gave -/
inductive Reading where
  | bytes (bs : List UInt8)
  /-- there is nothing at the path -/
  | missing
  /-- there is something that cannot be read -/
  | unreadable
  deriving DecidableEq, Repr

/-- how a text was obtained -/
inductive LoadStatus where
  | loaded
  /-- with invalid UTF-8 replaced -/
  | lossy
  | missing
  | unreadable
  deriving DecidableEq, Repr

namespace LoadStatus

/-- whether the text is that of the source -/
def hasContent (s : LoadStatus) : Bool := s = .loaded || s = .lossy

def describe : LoadStatus → String
  | loaded => "loaded"
  | lossy => "loaded with invalid UTF-8 replaced"
  | missing => "missing"
  | unreadable => "unreadable"

end LoadStatus

/-- a source and how it was obtained -/
structure Loaded where
  /-- as it was given -/
  path : Text
  text : Text
  status : LoadStatus
  kind : SourceKind
  deriving DecidableEq, Repr

/-- the source at a path, from what reading the path gave -/
def Loaded.ofReading (path : Text) (r : Reading) : Loaded :=
  let (text, status) := match r with
    | .bytes bs => match Decoding.decode bs with
      | (t, false) => (t, .loaded)
      | (t, true) => (t, .lossy)
    | .missing => ([], .missing)
    | .unreadable => ([], .unreadable)
  ⟨path, text, status, .ofPath path⟩

end StyleCheck
