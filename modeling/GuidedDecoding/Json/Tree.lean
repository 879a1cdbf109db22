import GuidedDecoding.Json.Token

namespace GuidedDecoding

inductive JsonTree where
  | null
  | bool (b : Bool)
  | number (text : NumberText)
  | string (parts : List StringPart)
  | array (items : List JsonTree)
  | object (members : List (List StringPart × JsonTree))
  deriving Repr, Inhabited

namespace JsonTree

inductive Frame where
  | array (items : List JsonTree)
  | object (members : List (List StringPart × JsonTree)) (key : List StringPart)

inductive Expected where
  | value
  | firstItem
  | key
  | firstKey
  | colon
  | separator

inductive State where
  | reading (frames : List Frame) (expected : Expected)
  | finished (tree : JsonTree)

def complete (tree : JsonTree) : List Frame → State
  | [] => .finished tree
  | .array items :: frames => .reading (.array (tree :: items) :: frames) .separator
  | .object members key :: frames =>
    .reading (.object ((key, tree) :: members) key :: frames) .separator

def beginValue (frames : List Frame) : JsonToken → Option State
  | .null => some (complete .null frames)
  | .bool b => some (complete (.bool b) frames)
  | .number text => some (complete (.number text) frames)
  | .string parts => some (complete (.string parts) frames)
  | .openArray => some (.reading (.array [] :: frames) .firstItem)
  | .openObject => some (.reading (.object [] [] :: frames) .firstKey)
  | _ => none

def step : State → JsonToken → Option State
  | .reading frames .value, token => beginValue frames token
  | .reading (.array [] :: frames) .firstItem, .closeArray => some (complete (.array []) frames)
  | .reading frames .firstItem, token => beginValue frames token
  | .reading (.object members _ :: frames) .key, .string parts
  | .reading (.object members _ :: frames) .firstKey, .string parts =>
    some (.reading (.object members parts :: frames) .colon)
  | .reading (.object [] _ :: frames) .firstKey, .closeObject =>
    some (complete (.object []) frames)
  | .reading frames .colon, .colon => some (.reading frames .value)
  | .reading (.array items :: frames) .separator, .comma =>
    some (.reading (.array items :: frames) .value)
  | .reading (.object members key :: frames) .separator, .comma =>
    some (.reading (.object members key :: frames) .key)
  | .reading (.array items :: frames) .separator, .closeArray =>
    some (complete (.array items.reverse) frames)
  | .reading (.object members _ :: frames) .separator, .closeObject =>
    some (complete (.object members.reverse) frames)
  | _, _ => none

def ofTokens? (tokens : List JsonToken) : Option JsonTree :=
  match tokens.foldlM step (.reading [] .value) with
  | some (.finished tree) => some tree
  | _ => none

def read? (text : List Char) : Option JsonTree := (JsonToken.scan? text).bind ofTokens?

end JsonTree
end GuidedDecoding
