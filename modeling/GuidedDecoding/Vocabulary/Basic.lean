import Std.Data.TreeMap
import Std.Data.TreeSet
import GuidedDecoding.Log

namespace GuidedDecoding

structure VocabularyEntry where
  raw : List UInt8
  decoded : List UInt8
  special : Bool
  deriving Repr, DecidableEq, Inhabited

structure RegularToken where
  id : Nat
  bytes : List UInt8
  deriving Repr, DecidableEq, Inhabited

namespace RegularToken

instance : Ord RegularToken := ⟨compareLex (compareOn bytes) (compareOn id)⟩

instance : Std.TransOrd RegularToken :=
  inferInstanceAs (Std.TransCmp (compareLex (compareOn bytes) (compareOn id)))

instance : Std.LawfulEqOrd RegularToken where
  eq_of_compare {a b} same := by
    obtain ⟨bytes, id⟩ := compareLex_eq_eq.mp same
    have bytes := Std.LawfulEqOrd.eq_of_compare bytes
    have id := Std.LawfulEqOrd.eq_of_compare id
    cases a
    cases b
    simp_all

end RegularToken

/-- The least id of each byte string that has one. -/
abbrev TokenIndex := Std.TreeMap (List UInt8) Nat

/-- Special tokens, which are control tokens and tokens without bytes, never match the content of a grammar. -/
structure Vocabulary where
  entries : Array VocabularyEntry
  encoding : TokenEncoding
  leadingSpace : Bool
  rawIndex : TokenIndex
  decodedIndex : TokenIndex
  sorted : List RegularToken
  deriving Repr

inductive VocabularyError where
  | notText (id : Nat) (encoding : TokenEncoding)
  deriving Repr, DecidableEq

def VocabularyError.message : VocabularyError → String
  | notText id encoding =>
    s!"Token ID {id} is not valid UTF-8, which a {encoding.name} vocabulary requires."

namespace Vocabulary

/-- The most tokens that a vocabulary can have. -/
def maxSize : Nat := 0x1000000

inductive CreationError where
  | tooLarge (size : Nat)
  | unreadable (error : VocabularyError)
  deriving Repr, DecidableEq

def CreationError.message : CreationError → String
  | tooLarge size => s!"The vocabulary size is {size}, while the maximum supported is {maxSize}."
  | unreadable error => error.message

def controlTokens : List String :=
  ["<unk>", "<s>", "</s>", "<pad>", "<bos>", "<eos>", "<|begin_of_text|>", "<|end_of_text|>",
    "<|eot_id|>", "<|endoftext|>", "<|im_start|>", "<|im_end|>", "<|end|>", "<end_of_turn>"]

def endTokens : List String :=
  ["</s>", "<|end_of_text|>", "<|eot_id|>", "<|endoftext|>", "<eos>", "<|im_end|>", "<|end|>",
    "<end_of_turn>"]

def isNamed (names : List String) (token : List UInt8) : Bool :=
  names.any fun name => Utf8.encode name.toList == token

def entry? (encoding : TokenEncoding) (raw : List UInt8) : Option VocabularyEntry :=
  match encoding.decode raw with
  | .bytes decoded => some ⟨raw, decoded, decoded.isEmpty || isNamed controlTokens raw⟩
  | .undecodable => some ⟨raw, [], true⟩
  | .notText => none

def remarks (encoding : TokenEncoding) (first : Option Nat) (id : Nat) (raw : List UInt8) :
    List Event :=
  let duplicate := first.toList.map (.duplicateToken · id)
  match encoding.decode raw with
  | .undecodable => duplicate ++ [.undecodableToken id encoding]
  | _ => duplicate

structure Reading where
  entries : List VocabularyEntry
  index : TokenIndex
  events : List Event

def readFrom (encoding : TokenEncoding) (done : Reading) (id : Nat) :
    List (List UInt8) → Reading × Option VocabularyError
  | [] => (done, none)
  | raw :: rest =>
    let events := (remarks encoding done.index[raw]? id raw).reverse ++ done.events
    match entry? encoding raw with
    | some entry =>
      readFrom encoding ⟨entry :: done.entries, done.index.insertIfNew raw id, events⟩ (id + 1) rest
    | none => ({ done with events := events }, some (.notText id encoding))

def regular (entries : List VocabularyEntry) : List RegularToken :=
  entries.zipIdx.filterMap fun (e, id) => if e.special then none else some ⟨id, e.decoded⟩

/-- The entries of an index for tokens in ascending order, behind an entry for the bytes `last`. Of
tokens with the same bytes the first one counts. -/
def indexEntries (last : Option (List UInt8)) : List RegularToken → List (List UInt8 × Nat)
  | [] => []
  | token :: rest =>
    if last = some token.bytes then indexEntries last rest
    else (token.bytes, token.id) :: indexEntries (some token.bytes) rest

/-- The bytes up to 247 that no regular token has; the others never occur in text. -/
def missingBytes (tokens : List RegularToken) : List Nat :=
  let present : Std.TreeSet UInt8 := tokens.foldl (fun set token => set.insertMany token.bytes) ∅
  (List.range 248).filter fun n => !present.contains (UInt8.ofNat n)

def ofTokens (tokens : List (List UInt8)) (encoding : TokenEncoding) (leadingSpace : Bool) :
    Except VocabularyError Vocabulary × List Event :=
  match readFrom encoding ⟨[], ∅, []⟩ 0 tokens with
  | (done, some e) => (.error e, done.events.reverse)
  | (done, none) =>
    let entries := done.entries.reverse
    let tokens := regular entries
    let sorted := (Std.TreeSet.ofList tokens).toList
    let missing :=
      match missingBytes tokens with
      | [] => []
      | bytes => [.missingBytes bytes]
    (.ok {
      entries := entries.toArray
      encoding := encoding
      leadingSpace := leadingSpace
      rawIndex := done.index
      decodedIndex := .ofList (indexEntries none sorted)
      sorted := sorted },
    done.events.reverse ++ missing)

def create (tokens : List (List UInt8)) (encoding : TokenEncoding) (leadingSpace : Bool) :
    Except CreationError Vocabulary × List Event :=
  if maxSize < tokens.length then (.error (.tooLarge tokens.length), [])
  else
    let (result, events) := ofTokens tokens encoding leadingSpace
    (result.mapError .unreadable, events)

def size (v : Vocabulary) : Nat := v.entries.size

def raw? (v : Vocabulary) (id : Nat) : Option (List UInt8) := v.entries[id]?.map (·.raw)

def decoded? (v : Vocabulary) (id : Nat) : Option (List UInt8) := v.entries[id]?.map (·.decoded)

def isSpecial (v : Vocabulary) (id : Nat) : Bool := v.entries[id]?.any (·.special)

def specialIds (v : Vocabulary) : List Nat := (List.range v.size).filter v.isSpecial

def endIds (v : Vocabulary) : List Nat :=
  (List.range v.size).filter fun id => (v.raw? id).any (isNamed endTokens)

def idOf? (v : Vocabulary) (raw : List UInt8) : Option Nat := v.rawIndex[raw]?

def idOfDecoded? (v : Vocabulary) (bytes : List UInt8) : Option Nat := v.decodedIndex[bytes]?

def summary (v : Vocabulary) : String :=
  "Vocabulary \x7b vocab_size: " ++ toString v.size ++ ", vocab_type: " ++ v.encoding.label ++
    ", prepend_space_in_tokenization: " ++ toString v.leadingSpace ++
    ", special_token_ids: " ++ bracketed v.specialIds ++
    ", detected_stop_token_ids: " ++ bracketed v.endIds ++ " \x7d"

end Vocabulary
end GuidedDecoding
