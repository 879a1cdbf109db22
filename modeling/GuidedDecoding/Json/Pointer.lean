import GuidedDecoding.Json.Basic

namespace GuidedDecoding.Json

def splitKeys (text : List Char) : List (List Char) := (text.splitOn '/').drop 1

def pointerKey : List Char → List Char
  | '~' :: '1' :: rest => '/' :: pointerKey rest
  | '~' :: '0' :: rest => '~' :: pointerKey rest
  | c :: rest => c :: pointerKey rest
  | [] => []

def pointerIndex? (key : List Char) : Option Nat :=
  if key.isEmpty || !key.all Char.isDigit || (key.head? == some '0' && key.length != 1) then none
  else
    let n := NumberText.toNat key
    if n < NumberText.limit then some n else none

def child? (key : List Char) : Json → Option Json
  | .object members => lookup (String.ofList key) members
  | .array items => (pointerIndex? key).bind (items[·]?)
  | _ => none

def pointer? (value : Json) (pointer : List Char) : Option Json :=
  match pointer with
  | [] => some value
  | '/' :: _ => (splitKeys pointer).foldlM (fun value key => child? (pointerKey key) value) value
  | _ => none

end GuidedDecoding.Json
