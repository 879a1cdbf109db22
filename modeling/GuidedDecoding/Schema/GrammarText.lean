import GuidedDecoding.Grammar.Basic
import GuidedDecoding.Schema.Conversion

namespace GuidedDecoding

def SchemaError.message : SchemaError → String
  | invalidJson => "The JSON schema is not valid JSON"
  | unsupported rule fault => "Unsupported JSON schema at `" ++ rule ++ "`: " ++ fault.message
  | grammar error => error.message

namespace Json

mutual

def references : Json → List String
  | .array items => referencesIn items
  | .object members => memberReferences members
  | _ => []

def referencesIn : List Json → List String
  | [] => []
  | item :: rest => item.references ++ referencesIn rest

def memberReferences : List (String × Json) → List String
  | [] => []
  | (key, .string target) :: rest =>
    if key == "$ref" then target :: memberReferences rest else memberReferences rest
  | (_, value) :: rest => value.references ++ memberReferences rest

end

end Json

namespace Conversion

/-- The rules of a schema, the main rule last. An expansion inside another is of a reference that is
new there, so there are no more of them inside one another than references in the schema. -/
def ofJson (settings : SchemaSettings) (json : Json) : Conversion Unit := do
  let resolve pointer := (json.pointer? pointer).map Schema.ofJson
  let root ← expanded settings resolve json.references.length "root" 0 (Schema.ofJson json)
  addRule "root" [root]

end Conversion

namespace Schema

def ownRules (settings : SchemaSettings) (json : Json) :
    Except SchemaError (List FragmentRule) × List Event :=
  let (result, state) := (Conversion.ofJson settings json).run.run {}
  (result.map fun _ => state.rules.toList, state.events.toList)

def grammarText (settings : SchemaSettings) (text : String) :
    Except SchemaError (List Char) × List Event :=
  match Json.read? text with
  | none => (.error .invalidJson, [])
  | some json =>
    let (rules, events) := ownRules settings json
    (rules.map fun rules => (CommonRules.all settings ++ rules).flatMap FragmentRule.text, events)

def grammar (settings : SchemaSettings) (text : String) :
    Except SchemaError Grammar × List Event :=
  match grammarText settings text with
  | (.error e, events) => (.error e, events)
  | (.ok text, events) =>
    ((Grammar.ofText text {}).mapError .grammar,
      events ++ [.convertedSchema (String.ofList text)])

end Schema
end GuidedDecoding
