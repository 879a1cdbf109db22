import GuidedDecoding.Text.Utf8
import GuidedDecoding.Text.Hex

namespace GuidedDecoding.Escape

def isControl (c : Char) : Bool := c.toNat < 0x20 || (0x7F ≤ c.toNat && c.toNat < 0xA0)

def byte (b : UInt8) : List Char := '\\' :: 'x' :: Hex.digits 2 b.toNat

def char (c : Char) : List Char :=
  if c = '\n' then ['\\', 'n']
  else if c = '\r' then ['\\', 'r']
  else if c = '\t' then ['\\', 't']
  else if c = '\\' then ['\\', '\\']
  else if c = '"' then ['\\', '"']
  else if isControl c then '\\' :: 'x' :: Hex.digits 2 c.toNat
  else [c]

def bytes (bs : List UInt8) : List Char :=
  match bs with
  | [] => []
  | b :: rest =>
    match h : Utf8.decodeChar? (b :: rest) with
    | some (c, after) =>
      have : after.length < rest.length + 1 := Utf8.decodeChar?_length h
      char c ++ bytes after
    | none => byte b ++ bytes rest
termination_by bs.length

def classChar (n : Nat) : List Char :=
  if n.isValidChar then
    let c := Char.ofNat n
    if c = ']' ∨ c = '-' ∨ c = '^' then ['\\', c] else char c
  else '\\' :: 'U' :: Hex.digits 8 n

end GuidedDecoding.Escape
