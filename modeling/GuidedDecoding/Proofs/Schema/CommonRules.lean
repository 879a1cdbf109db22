import Mathlib
import GuidedDecoding.Proofs.Schema.Brackets

open scoped Computability

namespace GuidedDecoding.CommonRules

open Fragment (ofText charClass rule optional many group)
open JsonSyntax (isSpace texts string_le_value)
open Promises (writes_exactly writes_ofText writes_class writes_rule)

def parts : List (String × Language Char) :=
  [("basic_escape", JsonSyntax.escape), ("basic_char", JsonSyntax.character), ("basic_string", JsonSyntax.string)]

def valueNames : List String :=
  ["basic_integer", "basic_number", "basic_boolean", "basic_null", "basic_any", "basic_array", "basic_object"]

/-- What the rules are relied on for if values are to belong to any of certain languages. -/
def promises (values : Language Char → Prop) : Promises where
  made name language := (name, language) ∈ parts ∨ name ∈ valueNames ∧ values language
  named {name language} made := by
    have first : ∀ promise ∈ parts, Token.IsName promise.1 := by
      simp only [parts, List.forall_mem_cons]
      decide
    have others : ∀ name ∈ valueNames, Token.IsName name := by decide
    rcases made with part | ⟨value, _⟩
    · exact first _ part
    · exact others name value

/-- Each of these languages has all scalars, and the arrays and objects of the values of one of them. -/
structure Admits (settings : SchemaSettings) (values : Language Char → Prop) : Prop where
  scalar : ∀ {language}, values language →
    JsonSyntax.string + JsonSyntax.number + JsonSyntax.boolean + JsonSyntax.null ≤ language
  nested : ∀ {language}, values language →
    ∃ wording, settings.inlineLayout.Words wording ∧ wording.whole = language ∧ values wording.value

section

variable {values : Language Char → Prop}

theorem made_string : (promises values).made "basic_string" JsonSyntax.string := .inl (by simp [parts])

theorem made_character : (promises values).made "basic_char" JsonSyntax.character := .inl (by simp [parts])

theorem made_any {language : Language Char} (value : values language) : (promises values).made "basic_any" language :=
  .inr ⟨by simp [valueNames], value⟩

end

theorem integer_le_number : JsonSyntax.integer ≤ JsonSyntax.number := by
  have bare : JsonSyntax.integer * 1 * 1 ≤ JsonSyntax.number :=
    mul_le_mul' (mul_le_mul' le_rfl le_self_add) le_self_add
  rwa [mul_one, mul_one] at bare

section

variable {known : Promises}

theorem writes_escape : known.WritesAll
    [[charClass "\"\\\\/bfnrt"], [ofText ['u'], .repeated (charClass "A-Fa-f0-9") 4 (some 4)]] JsonSyntax.escape := by
  simp only [Promises.WritesAll, List.forall_mem_cons]
  refine ⟨(writes_class Fragment.isClass_escape).le le_self_add, ?_, by simp⟩
  have digits : known.Writes [.repeated (charClass "A-Fa-f0-9") 4 (some 4)] (JsonSyntax.hexDigit ^ 4) := by
    apply Promises.writes_singleton (Fragment.spelled_repeated.mpr Fragment.isClass_hexDigit.spelled)
    intro sets _
    rw [Fragment.denotes_exactly, Fragment.isClass_hexDigit.denotes]
    rfl
  exact ((writes_exactly ['u']).cons digits).le le_add_self

theorem writes_character (escape : known.made "basic_escape" JsonSyntax.escape) : known.WritesAll
    [[charClass "^\"\\\\\\x00-\\x1f"], [ofText ['\\'], rule "basic_escape"]] JsonSyntax.character := by
  simp only [Promises.WritesAll, List.forall_mem_cons]
  exact ⟨(writes_class Fragment.isClass_plain).le le_self_add,
    ((writes_exactly ['\\']).cons (writes_rule escape)).le le_add_self, by simp⟩

theorem writes_string (character : known.made "basic_char" JsonSyntax.character) :
    known.Writes [quotationMark, many (rule "basic_char"), quotationMark] JsonSyntax.string := by
  have mark : known.Writes [quotationMark] {['"']} := writes_exactly ['"']
  exact (mark.append (writes_rule character).many).append mark

theorem writes_integer : known.Writes whole JsonSyntax.integer where
  spelled := by simp [whole, digits, Fragment.isClass_leading.spelled, Fragment.isClass_digit.spelled]
  within sets _ := by
    rw [Fragment.denotesSequence_whole]

theorem writes_number : known.Writes (whole ++ [optional (group [[ofText ['.'], someDigits]]),
    optional (group [[charClass "eE", optional (charClass "+-"), someDigits]])]) JsonSyntax.number where
  spelled := by
    simp [whole, someDigits, digits, Fragment.isClass_leading.spelled, Fragment.isClass_digit.spelled,
      Fragment.isClass_exponent.spelled, Fragment.isClass_sign.spelled]
  within sets _ := by
    rw [Fragment.denotesSequence_number]

theorem writes_boolean : known.WritesAll [[ofText ['t', 'r', 'u', 'e']], [ofText ['f', 'a', 'l', 's', 'e']]]
    JsonSyntax.boolean := by
  simp only [Promises.WritesAll, List.forall_mem_cons]
  exact ⟨writes_ofText (.inl rfl), writes_ofText (.inr rfl), by simp⟩

theorem writes_null : known.Writes [ofText ['n', 'u', 'l', 'l']] JsonSyntax.null := writes_ofText rfl

section

variable {settings : SchemaSettings} {wording : Wording} (words : settings.inlineLayout.Words wording)
include words

theorem writes_array (any : known.made "basic_any" wording.value) :
    known.WritesAll (array settings).alternatives wording.whole := by
  have item := writes_rule any
  have items := (item.append (Layout.writes_another words item).many).le words.items.several
  exact (settings.writes_orEmpty (words.arrayOf items) (words.emptyArray known)).all

theorem writes_object (string : known.made "basic_string" JsonSyntax.string) (any : known.made "basic_any" wording.value) :
    known.WritesAll (object settings).alternatives wording.whole := by
  have pair := words.pair (writes_rule string) (writes_rule any)
  have members := (pair.append (Layout.writes_another words pair).many).le words.members.several
  exact (settings.writes_orEmpty (words.objectOf members) (words.emptyObject known)).all

end

end

section

variable {settings : SchemaSettings} {values : Language Char → Prop}

theorem writes_any {language : Language Char} (admits : Admits settings values) (value : values language) :
    (promises values).WritesAll [[rule "basic_number"], [rule "basic_string"], [rule "basic_boolean"],
      [rule "basic_null"], [rule "basic_array"], [rule "basic_object"]] language := by
  have named {name : String} (listed : name ∈ valueNames) : (promises values).Writes [rule name] language :=
    writes_rule (.inr ⟨listed, value⟩)
  have string : JsonSyntax.string ≤ language := fun _ text => admits.scalar value (.inl (.inl (.inl text)))
  simp only [Promises.WritesAll, List.forall_mem_cons]
  exact ⟨named (by simp [valueNames]), (writes_rule made_string).le string, named (by simp [valueNames]),
    named (by simp [valueNames]), named (by simp [valueNames]), named (by simp [valueNames]), by simp⟩

def Keeps (values : Language Char → Prop) (rule : FragmentRule) (promise : String × Language Char) : Prop :=
  rule.name = promise.1 ∧ (promises values).WritesAll rule.alternatives promise.2

theorem keeps_parts : List.Forall₂ (Keeps values) (fixed.take 3) parts := by
  have escape : (promises values).made "basic_escape" JsonSyntax.escape := .inl (by simp [parts])
  exact .cons ⟨rfl, writes_escape⟩ <| .cons ⟨rfl, writes_character escape⟩ <|
    .cons ⟨rfl, (writes_string made_character).all⟩ .nil

theorem keeps_values (admits : Admits settings values) {language : Language Char} (value : values language) :
    List.Forall₂ (Keeps values) (fixed.drop 3 ++ [array settings, object settings])
      (valueNames.map fun name => (name, language)) := by
  have number : JsonSyntax.number ≤ language := fun _ text => admits.scalar value (.inl (.inl (.inr text)))
  have boolean : JsonSyntax.boolean ≤ language := fun _ text => admits.scalar value (.inl (.inr text))
  have null : JsonSyntax.null ≤ language := fun _ text => admits.scalar value (.inr text)
  have any := writes_any admits value
  obtain ⟨wording, words, rfl, inner⟩ := admits.nested value
  exact .cons ⟨rfl, (writes_integer.le (integer_le_number.trans number)).all⟩ <|
    .cons ⟨rfl, (writes_number.le number).all⟩ <| .cons ⟨rfl, fun pieces member => (writes_boolean pieces member).le boolean⟩ <|
    .cons ⟨rfl, (writes_null.le null).all⟩ <| .cons ⟨rfl, any⟩ <|
    .cons ⟨rfl, writes_array words (made_any inner)⟩ <|
    .cons ⟨rfl, writes_object words made_string (made_any inner)⟩ .nil

theorem kept (admits : Admits settings values) : (promises values).KeptBy (all settings) := by
  rintro name language (part | ⟨listed, value⟩)
  · obtain ⟨rule, member, named, writes⟩ := (exists_partner keeps_parts).2 (name, language) part
    exact ⟨rule, List.mem_append_left _ (List.mem_of_mem_take member), named, writes⟩
  · obtain ⟨rule, member, named, writes⟩ :=
      (exists_partner (keeps_values admits value)).2 (name, language) (List.mem_map_of_mem listed)
    exact ⟨rule, List.mem_append.mpr ((List.mem_append.mp member).imp_left List.mem_of_mem_drop), named, writes⟩

end

end GuidedDecoding.CommonRules
