import GuidedDecoding.Text.Bracketed
import GuidedDecoding.Vocabulary.Encoding

namespace GuidedDecoding

inductive Event where
  | duplicateToken (first second : Nat)
  | undecodableToken (id : Nat) (encoding : TokenEncoding)
  | missingBytes (bytes : List Nat)
  | convertedSchema (text : String)
  | ignoredKeyword (keyword rule : String)
  | droppedBound (keyword rule : String) (limit : Nat)
  | refusedAfterStop (id : Nat)
  | refusedStop (id : Nat)
  | computedMask (allowed evaluated : Nat)
  | clearedCache (entries : Nat)
  | rolledBack (steps : Nat)
  | reset
  deriving Repr, DecidableEq

namespace Event

inductive Severity where
  | warn
  | debug
  | trace
  deriving Repr, DecidableEq

def Severity.name : Severity → String
  | warn => "WARN"
  | debug => "DEBUG"
  | trace => "TRACE"

def severity : Event → Severity
  | duplicateToken .. | undecodableToken .. | missingBytes .. | ignoredKeyword ..
  | droppedBound .. => .warn
  | computedMask .. => .trace
  | _ => .debug

def message : Event → String
  | duplicateToken first second =>
    s!"Token ID {first} and token ID {second} corresponds to the same token. " ++
      "The second token ID will be ignored when matching tokens to ids."
  | undecodableToken id encoding =>
    s!"Token ID {id} cannot be decoded as a {encoding.name} token. " ++
      "It will be treated as a special token and never match grammar content."
  | missingBytes bytes =>
    "The following bytes are not present in any decoded token: " ++ bracketed bytes ++
      ". This likely indicates that the vocabulary loading code is wrong, the vocabulary type " ++
      "is wrong or the tokenizer is not UTF-8 compatible. " ++
      "Grammars requiring these bytes cannot be matched by any token."
  | convertedSchema text => "Converted the JSON schema into the grammar:\n" ++ text
  | ignoredKeyword keyword rule =>
    "The JSON schema keyword `" ++ keyword ++ "` in `" ++ rule ++
      "` is not supported and is ignored."
  | droppedBound keyword rule limit =>
    "`" ++ keyword ++ "` in `" ++ rule ++ s!"` exceeds {limit} and is treated as unbounded."
  | refusedAfterStop id => s!"Token ID {id} is rejected because the matcher is terminated."
  | refusedStop id =>
    s!"Stop token ID {id} is rejected because the grammar is not matched yet."
  | computedMask allowed evaluated =>
    s!"Computed the token bitmask: {allowed} of {evaluated} evaluated tokens are allowed."
  | clearedCache entries => s!"The bitmask cache reached {entries} entries and is cleared."
  | rolledBack steps => s!"Rolled back {steps} tokens."
  | reset => "The matcher is reset."

def line (event : Event) : String := event.severity.name ++ " " ++ event.message

end Event
end GuidedDecoding
