import GuidedDecoding.Json.Basic

namespace GuidedDecoding.JsonTree

abbrev Fields := List (String × JsonTree)

def namedMembers? (names : List String) : List (List StringPart × JsonTree) → Option Fields
  | [] => some []
  | (key, value) :: rest => do
    let key := String.ofList (← Json.decodeString? key)
    let rest ← namedMembers? names rest
    if !names.contains key then return rest
    else if rest.any (·.1 == key) then none
    else return (key, value) :: rest

def fields? (names : List String) : JsonTree → Option Fields
  | .object members => namedMembers? names members
  | .array items => if items.length = names.length then some (names.zip items) else none
  | _ => none

namespace Fields

def field? (fields : Fields) (name : String) (read : JsonTree → Option α) : Option α :=
  (fields.lookup name).bind read

def optional? (fields : Fields) (name : String) (read : JsonTree → Option α) :
    Option (Option α) :=
  match fields.lookup name with
  | none | some .null => some none
  | some value => (read value).map some

end Fields

def text? : JsonTree → Option String
  | .string parts => (Json.decodeString? parts).map String.ofList
  | _ => none

def bool? : JsonTree → Option Bool
  | .bool b => some b
  | _ => none

def natBelow? (limit : Nat) : JsonTree → Option Nat
  | .number text =>
    match text.value? with
    | some (.integer (.ofNat n)) => if n < limit then some n else none
    | _ => none
  | _ => none

def list? (read : JsonTree → Option α) : JsonTree → Option (List α)
  | .array items => items.mapM read
  | _ => none

def pair? (read : JsonTree → Option α) : JsonTree → Option (α × α)
  | .array [first, second] => do return (← read first, ← read second)
  | _ => none

end GuidedDecoding.JsonTree

namespace GuidedDecoding.Json

def ofNat (n : Nat) : Json := .number (.integer n)

def ofOption (encode : α → Json) : Option α → Json
  | none => .null
  | some a => encode a

end GuidedDecoding.Json
