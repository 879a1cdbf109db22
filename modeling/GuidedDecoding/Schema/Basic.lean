import GuidedDecoding.Grammar.Fault
import GuidedDecoding.Json.Basic

namespace GuidedDecoding

inductive SchemaFault where
  | nothing
  | notSchema
  | referenceNotText
  | remoteReference (target : String)
  | danglingReference (target : String)
  | badEnumeration
  | badUnion
  | severalConjuncts
  | typeNotText
  | typeListNotText
  | unknownType (name : String)
  | leadingNotArray
  | propertiesNotObject
  | badBound (keyword : String)
  | boundTooLarge (keyword : String)
  | crossedBounds (minKeyword maxKeyword : String)
  | contradictoryCount
  deriving Repr, DecidableEq

def SchemaFault.message : SchemaFault → String
  | nothing => "the schema `false` accepts no value"
  | notSchema => "a schema must be an object or a boolean"
  | referenceNotText => "`$ref` must be a string"
  | remoteReference target => "only local references are supported, got `" ++ target ++ "`"
  | danglingReference target => "the reference `" ++ target ++ "` does not resolve"
  | badEnumeration => "`enum` must be a non-empty array"
  | badUnion => "`anyOf` and `oneOf` must be non-empty arrays"
  | severalConjuncts => "`allOf` is only supported with exactly one schema"
  | typeNotText => "`type` must be a string or an array of strings"
  | typeListNotText => "`type` must contain strings"
  | unknownType name => "unknown type `" ++ name ++ "`"
  | leadingNotArray => "`prefixItems` must be an array"
  | propertiesNotObject => "`properties` must be an object"
  | badBound keyword => "`" ++ keyword ++ "` must be a non-negative integer"
  | boundTooLarge keyword => "`" ++ keyword ++ s!"` must not exceed {maxRepetition}"
  | crossedBounds minKeyword maxKeyword =>
    "`" ++ minKeyword ++ "` is greater than `" ++ maxKeyword ++ "`"
  | contradictoryCount => "the item count bounds contradict `prefixItems`"

inductive BasicType where
  | integer
  | number
  | boolean
  | null
  deriving Repr, DecidableEq

structure CountBounds where
  min : Nat
  max : Option Nat
  dropped : Option String
  deriving Repr, DecidableEq

inductive Extra (σ : Type) where
  | forbidden
  | unspecified
  | schema (s : σ)
  deriving Repr

inductive Schema where
  | anything
  | unsupported (fault : SchemaFault)
  | annotated (ignored : List String) (schema : Schema)
  | reference (target : String)
  | constant (value : Json)
  | enumeration (values : List Json)
  | union (members : List Schema)
  | types (alternatives : List Schema)
  | basic (type : BasicType)
  | text (length : Except SchemaFault CountBounds)
  | array (leading : List Schema) (extra : Extra Schema) (count : Except SchemaFault CountBounds)
  | object (properties : List (String × Bool × Schema)) (extra : Extra Schema)
  deriving Inhabited

end GuidedDecoding
