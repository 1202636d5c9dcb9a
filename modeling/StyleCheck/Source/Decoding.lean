/-
Texts from bytes.

Bytes are read as UTF-8. The longest beginning of a character that cannot be completed is replaced by one replacement
character, and reading goes on with the byte that did not fit. A byte-order mark at the very beginning is dropped.
-/
import StyleCheck.Text.Basic

namespace StyleCheck.Decoding

/-- where we are with regard to characters -/
inductive Place where
  | between
  /-- `owed + 1` more bytes are owed, the next of them from `low` to `high`; `value` is what the bytes so far give -/
  | inside (owed low high value : Nat)
  deriving DecidableEq, Repr

/-- the machine: characters are last one first -/
structure St where
  place : Place
  chars : Text
  /-- something has been replaced -/
  lossy : Bool
  deriving DecidableEq, Repr

/-- the character in place of bytes that are none -/
def replacement : Char := '\ufffd'

/-- a whole character -/
def St.emit (s : St) (value : Nat) : St := { s with place := .between, chars := Char.ofNat value :: s.chars }

def St.replace (s : St) : St := ⟨.between, replacement :: s.chars, true⟩

/-- the first byte of a character -/
def first (s : St) (b : Nat) : St :=
  if b < 0x80 then s.emit b
  else if 0xC2 ≤ b ∧ b ≤ 0xDF then { s with place := .inside 0 0x80 0xBF (b - 0xC0) }
  else if b = 0xE0 then { s with place := .inside 1 0xA0 0xBF 0 }
  else if b = 0xED then { s with place := .inside 1 0x80 0x9F 0xD }
  else if 0xE1 ≤ b ∧ b ≤ 0xEF then { s with place := .inside 1 0x80 0xBF (b - 0xE0) }
  else if b = 0xF0 then { s with place := .inside 2 0x90 0xBF 0 }
  else if 0xF1 ≤ b ∧ b ≤ 0xF3 then { s with place := .inside 2 0x80 0xBF (b - 0xF0) }
  else if b = 0xF4 then { s with place := .inside 2 0x80 0x8F 4 }
  else s.replace

/-- one byte -/
def step (s : St) (b : Nat) : St :=
  match s.place with
  | .between => first s b
  | .inside owed low high value =>
    if low ≤ b ∧ b ≤ high then
      match owed with
      | 0 => s.emit (value * 64 + (b - 0x80))
      | n + 1 => { s with place := .inside n 0x80 0xBF (value * 64 + (b - 0x80)) }
    else first s.replace b

/-- a character that the end cuts off is replaced too -/
def St.finish (s : St) : St :=
  match s.place with
  | .between => s
  | .inside _ _ _ _ => s.replace

/-- the text without a byte-order mark in front -/
def dropMark : Text → Text
  | '\ufeff' :: t => t
  | t => t

/-- the text of bytes, and whether something in it was replaced -/
def decode (bytes : List UInt8) : Text × Bool :=
  let s := (bytes.foldl (fun s b => step s b.toNat) ⟨.between, [], false⟩).finish
  (dropMark s.chars.reverse, s.lossy)

/-- the bytes of a text -/
def encode (t : Text) : List UInt8 := t.flatMap String.utf8EncodeChar

end StyleCheck.Decoding
