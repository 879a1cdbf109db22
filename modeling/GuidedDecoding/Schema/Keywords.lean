import GuidedDecoding.Schema.Basic

namespace GuidedDecoding

/-- A JSON value in the roles that it may have inside a schema. -/
structure Reading where
  value : Json
  schema : Schema
  items : List Schema
  members : List (String × Schema)
  deriving Inhabited

abbrev Keywords := List (String × Reading)

namespace Keywords

def get? (keywords : Keywords) (name : String) : Option Reading :=
  (keywords.find? (·.1 == name)).map Prod.snd

def has (keywords : Keywords) (name : String) : Bool := (keywords.get? name).isSome

/-- The keywords that constrain values in a way no grammar here can express. -/
def ignored : List String :=
  ["pattern", "format", "minimum", "maximum", "exclusiveMinimum", "exclusiveMaximum", "multipleOf",
    "minProperties", "maxProperties", "uniqueItems", "contains", "not"]

def reference? (keywords : Keywords) : Option Schema := do
  let reading ← keywords.get? "$ref"
  match reading.value with
  | .string target => return .reference target
  | _ => return .unsupported .referenceNotText

def constant? (keywords : Keywords) : Option Schema := do
  let reading ← keywords.get? "const"
  return .constant reading.value

def enumeration? (keywords : Keywords) : Option Schema := do
  let reading ← keywords.get? "enum"
  match reading.value with
  | .array (value :: rest) => return .enumeration (value :: rest)
  | _ => return .unsupported .badEnumeration

def union? (keywords : Keywords) : Option Schema := do
  let reading ← keywords.get? "anyOf" <|> keywords.get? "oneOf"
  match reading.items with
  | [] => return .unsupported .badUnion
  | members => return .union members

def conjunct? (keywords : Keywords) : Option Schema := do
  let reading ← keywords.get? "allOf"
  match reading.items with
  | [schema] => return schema
  | _ => return .unsupported .severalConjuncts

def bound? (keywords : Keywords) (name : String) : Except SchemaFault (Option Nat) :=
  match (keywords.get? name).map Reading.value with
  | none => .ok none
  | some (.number (.integer (.ofNat n))) => .ok (some n)
  | some _ => .error (.badBound name)

/-- A lower bound that no repetition can have is a fault, such an upper bound is dropped. -/
def bounds (keywords : Keywords) (minName maxName : String) : Except SchemaFault CountBounds := do
  let min := (← keywords.bound? minName).getD 0
  if maxRepetition < min then .error (.boundTooLarge minName)
  else
    match ← keywords.bound? maxName with
    | none => return ⟨min, none, none⟩
    | some max =>
      if maxRepetition < max then return ⟨min, none, some maxName⟩
      else if max < min then .error (.crossedBounds minName maxName)
      else return ⟨min, some max, none⟩

def extra (keywords : Keywords) (first second : String) : Extra Schema :=
  match keywords.get? first <|> keywords.get? second with
  | none => .unspecified
  | some ⟨.bool false, _, _, _⟩ => .forbidden
  | some reading => .schema reading.schema

def text (keywords : Keywords) : Schema := .text (keywords.bounds "minLength" "maxLength")

def array (keywords : Keywords) : Schema :=
  let rest leading :=
    Schema.array leading (keywords.extra "items" "unevaluatedItems")
      (keywords.bounds "minItems" "maxItems")
  match keywords.get? "prefixItems" with
  | none => rest []
  | some ⟨.array _, _, items, _⟩ => rest items
  | some _ => .unsupported .leadingNotArray

def required (keywords : Keywords) : List String :=
  match (keywords.get? "required").map Reading.value with
  | some (.array names) => names.filterMap fun
    | .string name => some name
    | _ => none
  | _ => []

def object (keywords : Keywords) : Schema :=
  let required := keywords.required
  let rest (properties : List (String × Schema)) :=
    Schema.object (properties.map fun (key, schema) => (key, required.contains key, schema))
      (keywords.extra "additionalProperties" "unevaluatedProperties")
  match keywords.get? "properties" with
  | none => rest []
  | some ⟨.object _, _, _, members⟩ => rest members
  | some _ => .unsupported .propertiesNotObject

def ofType (keywords : Keywords) : String → Schema
  | "string" => keywords.text
  | "integer" => .basic .integer
  | "number" => .basic .number
  | "boolean" => .basic .boolean
  | "null" => .basic .null
  | "array" => keywords.array
  | "object" => keywords.object
  | name => .unsupported (.unknownType name)

def untyped (keywords : Keywords) : Schema :=
  let ofObjects := ["properties", "required", "additionalProperties", "unevaluatedProperties"]
  if ofObjects.any keywords.has then
    keywords.object
  else if ["items", "prefixItems", "unevaluatedItems", "minItems", "maxItems"].any keywords.has then
    keywords.array
  else if ["minLength", "maxLength", "pattern", "format"].any keywords.has then keywords.text
  else .anything

def typed (keywords : Keywords) : Schema :=
  match (keywords.get? "type").map Reading.value with
  | none => keywords.untyped
  | some (.string name) => keywords.ofType name
  | some (.array names) => .types <| names.map fun
    | .string name => keywords.ofType name
    | _ => .unsupported .typeListNotText
  | some _ => .unsupported .typeNotText

def schema (keywords : Keywords) : Schema :=
  .annotated (ignored.filter keywords.has) <|
    (keywords.reference? <|> keywords.constant? <|> keywords.enumeration? <|> keywords.union? <|>
      keywords.conjunct?).getD keywords.typed

end Keywords

mutual

def Reading.ofJson : Json → Reading
  | .bool true => ⟨.bool true, .anything, [], []⟩
  | .bool false => ⟨.bool false, .unsupported .nothing, [], []⟩
  | .array items => ⟨.array items, .unsupported .notSchema, schemasOf items, []⟩
  | .object members =>
    let keywords := keywordsOf members
    ⟨.object members, Keywords.schema keywords, [], keywords.map fun (key, r) => (key, r.schema)⟩
  | value => ⟨value, .unsupported .notSchema, [], []⟩

def schemasOf : List Json → List Schema
  | [] => []
  | item :: rest => (Reading.ofJson item).schema :: schemasOf rest

def keywordsOf : List (String × Json) → Keywords
  | [] => []
  | (key, value) :: rest => (key, Reading.ofJson value) :: keywordsOf rest

end

def Schema.ofJson (value : Json) : Schema := (Reading.ofJson value).schema

end GuidedDecoding
