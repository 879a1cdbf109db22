import Mathlib
import GuidedDecoding.Proofs.Json.Strings
import GuidedDecoding.Proofs.Schema.Leaves

namespace GuidedDecoding

theorem Keywords.bounds_eq_ok {keywords : Keywords} {minName maxName : String} {least most : Option Nat}
    (lower : keywords.bound? minName = .ok least) (upper : keywords.bound? maxName = .ok most)
    (small : least.getD 0 ≤ maxRepetition) (ordered : ∀ bound ∈ most, least.getD 0 ≤ bound ∧ bound ≤ maxRepetition) :
    keywords.bounds minName maxName = .ok ⟨least.getD 0, most, none⟩ := by
  simp only [bounds, bind, Except.bind, lower, upper, if_neg (Nat.not_lt.mpr small)]
  cases most with
  | none => rfl
  | some bound =>
    obtain ⟨above, allowed⟩ := ordered bound rfl
    dsimp only
    rw [if_neg (Nat.not_lt.mpr allowed), if_neg (Nat.not_lt.mpr above)]
    rfl

namespace Schema

def Within (least most : Option Nat) (n : Nat) : Prop := least.getD 0 ≤ n ∧ ∀ bound ∈ most, n ≤ bound

theorem mem_strings_iff {count : CountBounds} {text : List Char} :
    text ∈ strings count ↔ ∃ parts, JsonToken.next? text = some (.string parts, []) ∧
      count.min ≤ parts.length ∧ ∀ most ∈ count.max, parts.length ≤ most := by
  constructor
  · rintro ⟨_, within, _, ⟨_, rfl, inside, characters, rfl⟩, _, rfl, rfl⟩
    obtain ⟨parts, rfl, written⟩ := JsonSyntax.mem_character_pow_iff.mp characters
    exact ⟨parts, JsonSyntax.next?_eq_string_iff.mpr ⟨inside, written, rfl⟩, within⟩
  · rintro ⟨parts, string, within⟩
    obtain ⟨inside, written, rfl⟩ := JsonSyntax.next?_eq_string_iff.mp string
    have characters := JsonSyntax.mem_character_pow_iff.mpr ⟨parts, rfl, written⟩
    exact ⟨_, within, Language.append_mem_mul (Language.append_mem_mul (Set.mem_singleton ['"']) characters)
      (Set.mem_singleton ['"'])⟩

theorem leaf_text (settings : SchemaSettings) (count : CountBounds) :
    Leaf settings (.text (.ok count)) (Conversion.stringText count) (strings count) where
  whole _ _ among := by cases among
  typed := by simp
  written reference rule depth s := by
    rw [Conversion.body]
    cases dropped : count.dropped with
    | none => exact ⟨s, rfl, by simp [Conversion.takeBounds, Conversion.orFail, dropped]; rfl⟩
    | some keyword =>
      exact ⟨{ s with events := s.events.push (.droppedBound keyword rule maxRepetition) }, rfl,
        by simp [Conversion.takeBounds, Conversion.orFail, dropped]; rfl⟩
  entered := by
    unfold Conversion.stringText
    split
    · with_unfolding_all decide
    · simp [CommonRules.quotationMark]
  means known rules depth := by rw [valueTexts]

/-- What the grammar of strings accepts if the bounds are on the number of parts. -/
structure CountsParts (settings : SchemaSettings) (json : Json) (least most : Option Nat) : Prop where
  accepts : Accepts settings json {w | ∃ text parts, JsonToken.next? text = some (.string parts, []) ∧
    Within least most parts.length ∧ Utf8.encode text = w}
  plain : ∀ text parts, JsonToken.next? text = some (.string parts, []) → Within least most parts.length →
    (∀ part ∈ parts, part.isHalf = false) →
      ∃ s : String, Json.read? (String.ofList text) = some (.string s) ∧ Within least most s.length
  paired : ∀ text parts (s : String), JsonToken.next? text = some (.string parts, []) → Within least most parts.length →
    Json.read? (String.ofList text) = some (.string s) →
      2 * s.length + parts.countP StringPart.isHalf = 2 * parts.length ∧ ∀ bound ∈ most, s.length ≤ bound
  complete : ∀ s : String, Within least most s.length → ∃ text parts, JsonToken.next? text = some (.string parts, []) ∧
    Within least most parts.length ∧ Json.read? (String.ofList text) = some (.string s)

section

variable {least most : Option Nat} {text : List Char} {parts : List StringPart}
  (string : JsonToken.next? text = some (.string parts, []))
include string

theorem length_of_read {s : String} (read : Json.read? (String.ofList text) = some (.string s)) :
    2 * s.length + parts.countP StringPart.isHalf = 2 * parts.length := by
  rw [JsonSyntax.read?_of_string string] at read
  obtain ⟨decoded, parts, same⟩ := Option.map_eq_some_iff.mp read
  cases same
  rw [String.length_ofList]
  exact Json.length_decodeString? parts

theorem exists_read (whole : ∀ part ∈ parts, part.isHalf = false) :
    ∃ s : String, Json.read? (String.ofList text) = some (.string s) ∧ s.length = parts.length := by
  obtain ⟨inside, written, _⟩ := JsonSyntax.next?_eq_string_iff.mp string
  obtain ⟨decoded, decodes⟩ := Json.exists_decodeString? whole (JsonSyntax.unit_lt written)
  have read : Json.read? (String.ofList text) = some (.string (String.ofList decoded)) := by
    rw [JsonSyntax.read?_of_string string, decodes, Option.map_some]
  have length := length_of_read string read
  have none : parts.countP StringPart.isHalf = 0 := List.countP_eq_zero.mpr (by simpa using whole)
  exact ⟨_, read, by omega⟩

end

/-- A schema of strings with bounds that repetitions can have accepts the strings that have so many parts. Where no
surrogate pair is written these are its characters, and every string of such a length has an accepted text. -/
theorem countsParts (settings : SchemaSettings) {members : List (String × Json)} {ignored : List String}
    {least most : Option Nat} (stands : ofJson (.object members) = .annotated ignored (keywordsOf members).text)
    (lower : (keywordsOf members).bound? "minLength" = .ok least)
    (upper : (keywordsOf members).bound? "maxLength" = .ok most) (small : least.getD 0 ≤ maxRepetition)
    (ordered : ∀ bound ∈ most, least.getD 0 ≤ bound ∧ bound ≤ maxRepetition) :
    CountsParts settings (.object members) least most where
  accepts := by
    rw [Keywords.text, Keywords.bounds_eq_ok lower upper small ordered] at stands
    have accepts := (leaf_text settings _).accepts stands
    have bytes : encoded (strings ⟨least.getD 0, most, none⟩) = {w | ∃ text parts,
        JsonToken.next? text = some (.string parts, []) ∧ Within least most parts.length ∧ Utf8.encode text = w} := by
      ext w
      constructor
      · rintro ⟨text, among, rfl⟩
        obtain ⟨parts, string, within⟩ := mem_strings_iff.mp among
        exact ⟨text, parts, string, within, rfl⟩
      · rintro ⟨text, parts, string, within, rfl⟩
        exact ⟨text, mem_strings_iff.mpr ⟨parts, string, within⟩, rfl⟩
    rwa [bytes] at accepts
  plain text parts string within whole := by
    obtain ⟨s, read, length⟩ := exists_read string whole
    exact ⟨s, read, length ▸ within⟩
  paired text parts s string within read := by
    have length := length_of_read string read
    exact ⟨length, fun bound given => by
      have most := within.2 bound given
      omega⟩
  complete s within := by
    obtain ⟨parts, string, decoded, length⟩ := Json.exists_next?_quote s
    refine ⟨Json.quote s, parts, string, length ▸ within, ?_⟩
    rw [JsonSyntax.read?_of_string string, decoded, Option.map_some, String.ofList_toList]

def atLeastTwo : List (String × Json) := [("type", .string "string"), ("minLength", .number (.integer 2))]

theorem countsParts_atLeastTwo : ofJson (.object atLeastTwo) = .annotated [] (keywordsOf atLeastTwo).text ∧
    (keywordsOf atLeastTwo).bound? "minLength" = .ok (some 2) ∧ (keywordsOf atLeastTwo).bound? "maxLength" = .ok none ∧
    (some 2).getD 0 ≤ maxRepetition ∧ (∀ bound ∈ none, (some 2).getD 0 ≤ bound ∧ bound ≤ maxRepetition) ∧
    CountsParts {} (.object atLeastTwo) (some 2) none := by
  have small : (some 2).getD 0 ≤ maxRepetition := by decide
  have ordered : ∀ bound ∈ none, (some 2).getD 0 ≤ bound ∧ bound ≤ maxRepetition := by simp
  exact ⟨rfl, rfl, rfl, small, ordered, countsParts {} rfl rfl rfl small ordered⟩

def face : String := String.ofList [Char.ofNat 0x1F600]

def surrogates : String := "\"\\ud83d\\ude00\""

/-- A single character is accepted where two are asked for. -/
theorem surrogates_accepted :
    Json.read? "\x7b\"type\":\"string\",\"minLength\":2\x7d" = some (.object atLeastTwo) ∧
    ((grammar {} "\x7b\"type\":\"string\",\"minLength\":2\x7d").1.toOption.any fun grammar =>
      ((Utf8.encode surrogates.toList).foldl grammar.automaton.step grammar.automaton.initial).accepting) = true ∧
    Json.read? surrogates = some (.string face) ∧ face.length = 1 := by
  refine ⟨by decide +kernel, ?_, by decide +kernel, by decide +kernel⟩
  decide +kernel

end Schema

end GuidedDecoding
