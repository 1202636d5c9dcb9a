/-
JSON text.

`render` writes a value over several lines, two spaces deeper for each level; empty lists and objects stay on one line.
Characters that need no escape are written as they are.
-/
import StyleCheck.Text.Basic

namespace StyleCheck

/-- a value; fields keep their order -/
inductive Json where
  | null
  | bool (b : Bool)
  /-- a number in decimal -/
  | number (digits : String)
  | text (t : Text)
  | list (items : List Json)
  | object (fields : List (String × Json))

namespace Json

def nat (n : Nat) : Json := .number (toString n)

def ofString (s : String) : Json := .text s.toList

def ofOption {α : Type} (f : α → Json) : Option α → Json
  | none => .null
  | some a => f a

/-- one hexadecimal digit -/
def hexDigit (n : Nat) : Char := Nat.digitChar n

/-- a character inside a literal -/
def escape (c : Char) : Text :=
  if c = '"' then ['\\', '"']
  else if c = '\\' then ['\\', '\\']
  else if c = '\n' then ['\\', 'n']
  else if c = '\r' then ['\\', 'r']
  else if c = '\t' then ['\\', 't']
  else if c = '\x08' then ['\\', 'b']
  else if c = '\x0c' then ['\\', 'f']
  else if c.toNat < 0x20 then ['\\', 'u', '0', '0', hexDigit (c.toNat / 16), hexDigit (c.toNat % 16)]
  else [c]

def literal (t : Text) : Text := '"' :: t.flatMap escape ++ ['"']

/-- a line feed and the blanks of a level -/
def newline (level : Nat) : Text := '\n' :: List.replicate (2 * level) ' '

mutual

/-- a value whose first line is already indented -/
def renderAt (level : Nat) : Json → Text
  | null => "null".toList
  | bool b => (if b then "true" else "false").toList
  | number digits => digits.toList
  | text t => literal t
  | list [] => ['[', ']']
  | list items => '[' :: renderItems (level + 1) items ++ newline level ++ [']']
  | object [] => ['{', '}']
  | object fields => '{' :: renderFields (level + 1) fields ++ newline level ++ ['}']

/-- the items of a list, one a line -/
def renderItems (level : Nat) : List Json → Text
  | [] => []
  | [v] => newline level ++ renderAt level v
  | v :: vs => newline level ++ renderAt level v ++ ',' :: renderItems level vs

/-- the fields of an object, one a line -/
def renderFields (level : Nat) : List (String × Json) → Text
  | [] => []
  | [(k, v)] => newline level ++ literal k.toList ++ [':', ' '] ++ renderAt level v
  | (k, v) :: fs => newline level ++ literal k.toList ++ [':', ' '] ++ renderAt level v ++ ',' :: renderFields level fs

end

/-- a value as text, with a line feed behind it -/
def render (v : Json) : Text := renderAt 0 v ++ ['\n']

end Json

end StyleCheck
