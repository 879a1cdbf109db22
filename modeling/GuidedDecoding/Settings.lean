import GuidedDecoding.Grammar.Basic
import GuidedDecoding.Json.Printer
import GuidedDecoding.Json.Record
import GuidedDecoding.Matcher.Basic
import GuidedDecoding.Schema.Layout

namespace GuidedDecoding

structure Settings where
  grammar : GrammarSettings := {}
  matcher : MatcherSettings := {}
  deriving Repr, DecidableEq, Inhabited

def JsonTree.size? : JsonTree → Option Nat := natBelow? NumberText.limit

namespace GrammarSettings

def ofTree? (tree : JsonTree) : Option GrammarSettings := do
  let fields ← tree.fields? ["main_rule", "normalize"]
  return {
    mainRule := ← fields.field? "main_rule" JsonTree.text?
    normalize := ← fields.field? "normalize" JsonTree.bool? }

def toJson (settings : GrammarSettings) : Json :=
  .object [("main_rule", .string settings.mainRule), ("normalize", .bool settings.normalize)]

end GrammarSettings

namespace MatcherSettings

def ofTree? (tree : JsonTree) : Option MatcherSettings := do
  let fields ← tree.fields? ["stop_token_ids", "terminate_without_stop_token", "mask_vocab_size",
    "max_rollback_steps", "cache_enabled", "max_cache_entries"]
  return {
    stopTokens := ← fields.optional? "stop_token_ids"
      (JsonTree.list? (JsonTree.natBelow? Token.numberLimit))
    endsWhenMatched := ← fields.field? "terminate_without_stop_token" JsonTree.bool?
    maskSize := ← fields.optional? "mask_vocab_size" JsonTree.size?
    maxRollback := ← fields.field? "max_rollback_steps" JsonTree.size?
    cacheMasks := ← fields.field? "cache_enabled" JsonTree.bool?
    maxCached := ← fields.field? "max_cache_entries" JsonTree.size? }

def toJson (settings : MatcherSettings) : Json :=
  .object [
    ("stop_token_ids", .ofOption (fun ids => .array (ids.map .ofNat)) settings.stopTokens),
    ("terminate_without_stop_token", .bool settings.endsWhenMatched),
    ("mask_vocab_size", .ofOption .ofNat settings.maskSize),
    ("max_rollback_steps", .ofNat settings.maxRollback),
    ("cache_enabled", .bool settings.cacheMasks),
    ("max_cache_entries", .ofNat settings.maxCached)]

end MatcherSettings

namespace SchemaSettings

def ofTree? (tree : JsonTree) : Option SchemaSettings := do
  let fields ← tree.fields? ["any_whitespace", "indent", "separators", "strict_mode"]
  return {
    anyWhitespace := ← fields.field? "any_whitespace" JsonTree.bool?
    indent := ← fields.optional? "indent" JsonTree.size?
    separators := ← fields.optional? "separators" (JsonTree.pair? JsonTree.text?)
    strict := ← fields.field? "strict_mode" JsonTree.bool? }

def toJson (settings : SchemaSettings) : Json :=
  .object [
    ("any_whitespace", .bool settings.anyWhitespace),
    ("indent", .ofOption .ofNat settings.indent),
    ("separators", .ofOption (fun (between, keyValue) => .array [.string between, .string keyValue])
      settings.separators),
    ("strict_mode", .bool settings.strict)]

end SchemaSettings

namespace Settings

def ofTree? (tree : JsonTree) : Option Settings := do
  let fields ← tree.fields? ["grammar_config", "matcher_config"]
  return {
    grammar := ← fields.field? "grammar_config" GrammarSettings.ofTree?
    matcher := ← fields.field? "matcher_config" MatcherSettings.ofTree? }

def toJson (settings : Settings) : Json :=
  .object [("grammar_config", settings.grammar.toJson), ("matcher_config", settings.matcher.toJson)]

end Settings

namespace TokenEncoding

/-- An encoding is stored as its name, or as an object with null under the name. -/
def ofTree? : JsonTree → Option TokenEncoding
  | .object [(key, .null)] => find key
  | .string parts => find parts
  | _ => none
where
  find (parts : List StringPart) : Option TokenEncoding := do
    let name ← Json.decodeString? parts
    all.find? (·.name.toList == name)

def toJson (encoding : TokenEncoding) : Json := .string encoding.name

end TokenEncoding

namespace StoredToken

def ofTree? (tree : JsonTree) : Option (List UInt8) :=
  (tree.list? (JsonTree.natBelow? 256)).map fun bytes => bytes.map UInt8.ofNat

def toJson (bytes : List UInt8) : Json := .array (bytes.map fun b => .ofNat b.toNat)

end StoredToken
end GuidedDecoding
