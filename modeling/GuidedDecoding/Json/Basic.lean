import GuidedDecoding.Decimal.Binary64
import GuidedDecoding.Json.Tree

namespace GuidedDecoding

inductive JsonNumber where
  | integer (n : Int)
  | float (negative : Bool) (magnitude : Binary64)
  deriving Repr, DecidableEq, Inhabited

inductive Json where
  | null
  | bool (b : Bool)
  | number (n : JsonNumber)
  | string (text : String)
  | array (items : List Json)
  | object (members : List (String × Json))
  deriving Repr, Inhabited

namespace NumberText

def limit : Nat := 0x10000000000000000

/-- The significand after more digits, as long as it stays below the limit, and the digits that are
left then. -/
def extend (significand : Nat) : List Char → Nat × List Char
  | [] => (significand, [])
  | d :: digits =>
    let next := 10 * significand + (d.toNat - '0'.toNat)
    if next < limit then extend next digits else (significand, d :: digits)

def toNat (digits : List Char) : Nat :=
  digits.foldl (fun n d => 10 * n + (d.toNat - '0'.toNat)) 0

def exponentLimit : Nat := 0x80000000

def scaled? (significand : Nat) (scale : Int) (exponent : Option (Bool × List Char)) :
    Option Binary64 := do
  let start ← Binary64.round? significand 1
  match exponent with
  | none => start.scaleTens? scale
  | some (negative, digits) =>
    let size := toNat digits
    if size < exponentLimit then start.scaleTens? (if negative then scale - size else scale + size)
    else if significand ≠ 0 ∧ !negative then none
    else some .zero

/-- The number a text stands for. Whole numbers of 64 bits are exact. For others the digits are read
up to the limit of the significand; further digits in front of the point count as zeros, and further
digits behind the point as nothing. -/
def value? (text : NumberText) : Option JsonNumber :=
  let (significand, left) := extend 0 text.whole
  match left, text.fraction, text.exponent with
  | [], [], none =>
    if !text.negative then some (.integer significand)
    else if 0 < significand ∧ significand ≤ limit / 2 then some (.integer (-significand))
    else (Binary64.round? significand 1).map (.float true)
  | left, fraction, exponent =>
    let (significand, unread) := extend significand fraction
    let scale : Int := left.length - (fraction.length - unread.length : Nat)
    (scaled? significand scale exponent).map (.float text.negative)

end NumberText

namespace Json

def decodeString? : List StringPart → Option (List Char)
  | [] => some []
  | .char c :: rest => (decodeString? rest).map (c :: ·)
  | .unit n :: rest =>
    if n.isValidChar then (decodeString? rest).map (Char.ofNat n :: ·)
    else
      match rest with
      | .unit m :: rest =>
        if 0xD800 ≤ n ∧ n < 0xDC00 ∧ 0xDC00 ≤ m ∧ m < 0xE000 then
          (decodeString? rest).map
            (Char.ofNat (0x10000 + (n - 0xD800) * 0x400 + (m - 0xDC00)) :: ·)
        else none
      | _ => none

def insert (key : String) (value : Json) : List (String × Json) → List (String × Json)
  | [] => [(key, value)]
  | (k, v) :: rest => if k = key then (k, value) :: rest else (k, v) :: insert key value rest

def maxDepth : Nat := 127

mutual

def ofTree? (depth : Nat) : JsonTree → Option Json
  | .null => some .null
  | .bool b => some (.bool b)
  | .number text => text.value?.map .number
  | .string parts => (decodeString? parts).map fun text => .string (String.ofList text)
  | .array items => if depth = 0 then none else (itemsOf? (depth - 1) items).map .array
  | .object members => if depth = 0 then none else (membersOf? (depth - 1) [] members).map .object

def itemsOf? (depth : Nat) : List JsonTree → Option (List Json)
  | [] => some []
  | item :: rest => do
    let item ← ofTree? depth item
    let rest ← itemsOf? depth rest
    return item :: rest

def membersOf? (depth : Nat) (done : List (String × Json)) :
    List (List StringPart × JsonTree) → Option (List (String × Json))
  | [] => some done
  | (key, value) :: rest => do
    let key ← decodeString? key
    let value ← ofTree? depth value
    membersOf? depth (insert (String.ofList key) value done) rest

end

def read? (text : String) : Option Json := (JsonTree.read? text.toList).bind (ofTree? maxDepth)

def lookup (key : String) (members : List (String × Json)) : Option Json :=
  (members.find? (·.1 == key)).map Prod.snd

def get? (value : Json) (key : String) : Option Json :=
  match value with
  | .object members => lookup key members
  | _ => none

end Json
end GuidedDecoding
