import GuidedDecoding.Text.Hex
import GuidedDecoding.Text.Utf8

namespace GuidedDecoding

inductive TokenEncoding where
  | raw
  /-- `<0xAB>` spells the byte `AB`, and U+2581 spells a space. -/
  | byteFallback
  | byteLevel
  deriving Repr, DecidableEq, Inhabited

namespace TokenEncoding

def name : TokenEncoding → String
  | raw => "RAW"
  | byteFallback => "BYTE_FALLBACK"
  | byteLevel => "BYTE_LEVEL"

def label : TokenEncoding → String
  | raw => "Raw"
  | byteFallback => "ByteFallback"
  | byteLevel => "ByteLevel"

def all : List TokenEncoding := [raw, byteFallback, byteLevel]

inductive NameError where
  | unknown
  deriving Repr, DecidableEq

def NameError.message : NameError → String
  | .unknown => "Matching variant not found"

/-- Finds an encoding by its name; the case of ASCII letters does not matter. -/
def ofName (text : String) : Except NameError TokenEncoding :=
  match all.find? fun e => text.toList.map Char.toUpper == e.name.toList with
  | some e => .ok e
  | none => .error .unknown

/-- The byte that a character of the byte-level alphabet spells. Printable bytes spell themselves,
and the others follow from U+0100 on in ascending order. -/
def byteLevelByte? (c : Char) : Option UInt8 :=
  let n := c.toNat
  if (0x21 ≤ n ∧ n ≤ 0x7E) ∨ (0xA1 ≤ n ∧ n ≤ 0xAC) ∨ (0xAE ≤ n ∧ n ≤ 0xFF) then
    some (UInt8.ofNat n)
  else if 0x100 ≤ n ∧ n ≤ 0x120 then some (UInt8.ofNat (n - 0x100))
  else if 0x121 ≤ n ∧ n ≤ 0x142 then some (UInt8.ofNat (n - 0x121 + 0x7F))
  else if n = 0x143 then some 0xAD
  else none

def spelledByte? : List Char → Option UInt8
  | ['<', '0', 'x', high, low, '>'] => do
    let high ← Hex.value? high
    let low ← Hex.value? low
    return UInt8.ofNat (16 * high + low)
  | _ => none

def decodeByteFallback (text : List Char) : List UInt8 :=
  match spelledByte? text with
  | some b => [b]
  | none => Utf8.encode (text.map fun c => if c = '\u2581' then ' ' else c)

inductive Decoded where
  | bytes (content : List UInt8)
  | undecodable
  | notText
  deriving Repr, DecidableEq

def decode (encoding : TokenEncoding) (token : List UInt8) : Decoded :=
  match encoding with
  | raw => .bytes token
  | byteFallback =>
    match Utf8.decode? token with
    | some text => .bytes (decodeByteFallback text)
    | none => .notText
  | byteLevel =>
    match Utf8.decode? token with
    | some text =>
      match text.mapM byteLevelByte? with
      | some bytes => .bytes bytes
      | none => .undecodable
    | none => .notText

end TokenEncoding
end GuidedDecoding
