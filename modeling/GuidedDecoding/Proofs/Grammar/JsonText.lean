import Mathlib
import GuidedDecoding.Grammar.JsonText
import GuidedDecoding.Proofs.Schema.Denotation

open scoped Computability

namespace GuidedDecoding.JsonText

open CommonRules (digits someDigits whole quotationMark)
open Fragment (charClass rule group optional many ofText denotesAlternatives denotesSequence)
open JsonSyntax (texts blanks comma colon string character escape number boolean null texts_value texts_object
  texts_array texts_member texts_contents texts_list)

def rules : List FragmentRule :=
  [⟨"root", [[rule "object"], [rule "array"]]⟩,
    ⟨"value", [[rule "object"], [rule "array"], [rule "string"], [rule "number"],
      [ofText ['t', 'r', 'u', 'e']], [ofText ['f', 'a', 'l', 's', 'e']], [ofText ['n', 'u', 'l', 'l']]]⟩,
    ⟨"object", [[ofText ['\x7b'], rule "ws", optional (group [[rule "member",
      many (group [[rule "ws", ofText [','], rule "ws", rule "member"]]), rule "ws"]]), ofText ['\x7d']]]⟩,
    ⟨"member", [[rule "string", rule "ws", ofText [':'], rule "ws", rule "value"]]⟩,
    ⟨"array", [[ofText ['['], rule "ws", optional (group [[rule "value",
      many (group [[rule "ws", ofText [','], rule "ws", rule "value"]]), rule "ws"]]), ofText [']']]]⟩,
    ⟨"string", [[quotationMark, many (rule "char"), quotationMark]]⟩,
    ⟨"char", [[charClass "^\"\\\\\\x00-\\x1f"], [ofText ['\\'], rule "escape"]]⟩,
    ⟨"escape", [[charClass "\"\\\\/bfnrt"], [ofText ['u'], .repeated (charClass "A-Fa-f0-9") 4 (some 4)]]⟩,
    ⟨"number", [whole ++ [optional (group [[ofText ['.'], someDigits]]),
      optional (group [[charClass "eE", optional (charClass "+-"), someDigits]])]]⟩,
    ⟨"ws", [[many (charClass " \\n\\t")]]⟩]

set_option maxRecDepth 8000 in
theorem jsonText_eq : Grammar.jsonText = String.ofList (['\n'] ++ rules.flatMap (FragmentRule.spaced [' '])) := by
  simp only [rules, FragmentRule.spaced, Fragment.spacedAlternatives, Fragment.spacedSequence, Fragment.spaced,
    ofText, Fragment.optional, Fragment.many, whole, digits, someDigits, quotationMark, Printer.literal,
    Escape.bytes_encode, List.cons_append, List.nil_append, List.flatMap_cons, List.flatMap_nil]
  rfl

theorem spelled : ∀ r ∈ rules, r.Spelled := by
  have each : ∀ r ∈ rules, Token.IsName r.name ∧ ∀ a ∈ r.alternatives, ∀ f ∈ a, f.Spelled := by
    simp [rules, whole, digits, someDigits, quotationMark, Fragment.isClass_plain.spelled,
      Fragment.isClass_escape.spelled, Fragment.isClass_hexDigit.spelled, Fragment.isClass_digit.spelled,
      Fragment.isClass_leading.spelled, Fragment.isClass_exponent.spelled, Fragment.isClass_sign.spelled,
      Fragment.isClass_blank.spelled]
    decide
  exact fun r member => ⟨(each r member).1, (each r member).2⟩

theorem legible : ∀ r ∈ rules, r.Legible := by
  have each : ∀ r ∈ rules, r.alternatives ≠ [] ∧ ∀ a ∈ r.alternatives, a ≠ [] ∧ ∀ f ∈ a, f.Legible := by
    simp [rules, whole, digits, someDigits, quotationMark, Fragment.optional, Fragment.many]
    decide
  exact fun r member => ⟨(each r member).1, fun a among => ((each r member).2 a among).1,
    fun a among => ((each r member).2 a among).2⟩

theorem read_jsonText : Definition.read Grammar.jsonText.toList = .ok (rules.map FragmentRule.definition) := by
  have blank : ∀ c ∈ [' '], Token.isBlank c = true := by simp [Token.isBlank]
  have lead : ∀ c ∈ ['\n'], (Token.isBlank c || Token.isLineEnd c) = true := by simp [Token.isLineEnd]
  rw [jsonText_eq, String.toList_ofList, Definition.read_rules lead blank (by simp [rules]) spelled]
  exact ⟨legible, rfl⟩

def isBlank (c : Char) : Prop := c ∈ [' ', '\n', '\t']

def meaning : String → Language Char
  | "root" => texts isBlank .object + texts isBlank .array
  | "value" => texts isBlank .value
  | "object" => texts isBlank .object
  | "member" => texts isBlank .member
  | "array" => texts isBlank .array
  | "string" => string
  | "char" => character
  | "escape" => escape
  | "number" => number
  | "ws" => blanks isBlank
  | _ => 0

theorem denotes_enclosed {sets : String → Language Char} (gap : sets "ws" = blanks isBlank) (item : String)
    (before after : Fragment) :
    denotesAlternatives sets [[before, rule "ws", optional (group [[rule item,
        many (group [[rule "ws", ofText [','], rule "ws", rule item]]), rule "ws"]]), after]] =
      before.denotes sets * (blanks isBlank +
        blanks isBlank * (sets item * (comma isBlank * sets item)∗) * blanks isBlank) * after.denotes sets := by
  simp only [Fragment.denotesAlternatives_cons, Fragment.denotesAlternatives_nil, Fragment.denotesSequence_cons,
    Fragment.denotesSequence_nil, Fragment.denotes_rule, Fragment.denotes_optional, Fragment.denotes_many,
    Fragment.denotes_group, Fragment.denotes_ofText, gap, comma, mul_one, one_mul, add_zero, mul_add, add_mul,
    mul_assoc]

section

variable (sets : String → Language Char)

theorem denotes_ws : denotesAlternatives sets [[many (charClass " \\n\\t")]] = blanks isBlank := by
  rw [Fragment.denotesAlternatives_cons, Fragment.denotesSequence_cons, Fragment.denotes_many,
    Fragment.isClass_blank.denotes, Fragment.denotesSequence_nil, mul_one]
  exact add_zero _

theorem denotes_string (known : sets "char" = character) :
    denotesAlternatives sets [[quotationMark, many (rule "char"), quotationMark]] = string := by
  rw [Fragment.denotesAlternatives_cons, Fragment.denotesSequence_string sets known]
  exact add_zero _

theorem denotes_number :
    denotesAlternatives sets [whole ++ [optional (group [[ofText ['.'], someDigits]]),
      optional (group [[charClass "eE", optional (charClass "+-"), someDigits]])]] = number := by
  rw [Fragment.denotesAlternatives_cons, Fragment.denotesSequence_number]
  exact add_zero _

theorem denotes_member (gap : sets "ws" = blanks isBlank) :
    denotesAlternatives sets [[rule "string", rule "ws", ofText [':'], rule "ws", rule "value"]] =
      sets "string" * colon isBlank * sets "value" := by
  simp only [Fragment.denotesAlternatives_cons, Fragment.denotesAlternatives_nil, Fragment.denotesSequence_cons,
    Fragment.denotesSequence_nil, Fragment.denotes_rule, Fragment.denotes_ofText, gap, colon, mul_one, add_zero,
    mul_assoc]

theorem denotes_value :
    denotesAlternatives sets [[rule "object"], [rule "array"], [rule "string"], [rule "number"],
        [ofText ['t', 'r', 'u', 'e']], [ofText ['f', 'a', 'l', 's', 'e']], [ofText ['n', 'u', 'l', 'l']]] =
      sets "string" + sets "number" + boolean + null + sets "object" + sets "array" := by
  simp only [Fragment.denotesAlternatives_cons, Fragment.denotesAlternatives_nil, Fragment.denotesSequence_cons,
    Fragment.denotesSequence_nil, Fragment.denotes_rule, Fragment.denotes_ofText, boolean, null, mul_one, add_zero]
  ac_rfl

theorem denotes_root : denotesAlternatives sets [[rule "object"], [rule "array"]] = sets "object" + sets "array" := by
  simp only [Fragment.denotesAlternatives_cons, Fragment.denotesAlternatives_nil, Fragment.denotesSequence_cons,
    Fragment.denotesSequence_nil, Fragment.denotes_rule, mul_one, add_zero]

end

theorem denotes_meaning : ∀ r ∈ rules, denotesAlternatives meaning r.alternatives = meaning r.name := by
  simp only [rules, List.forall_mem_cons]
  refine ⟨?root, ?value, ?object, ?member, ?array, ?string, ?char, ?escape, ?number, ?ws, by simp⟩
  case root => exact denotes_root meaning
  case value => exact (denotes_value meaning).trans texts_value.symm
  case object =>
    rw [denotes_enclosed rfl]
    simp only [meaning, Fragment.denotes_ofText, texts_object, texts_contents, texts_list]
  case member => exact (denotes_member meaning rfl).trans texts_member.symm
  case array =>
    rw [denotes_enclosed rfl]
    simp only [meaning, Fragment.denotes_ofText, texts_array, texts_contents, texts_list]
  case string => exact denotes_string meaning rfl
  case char => exact Fragment.denotesAlternatives_character meaning rfl
  case escape => exact Fragment.denotesAlternatives_escape meaning
  case number => exact denotes_number meaning
  case ws => exact denotes_ws meaning

abbrev definitions : List Definition := rules.map FragmentRule.definition

theorem texts_le_meaning : Definition.texts definitions ≤ meaning :=
  FragmentRule.texts_le fun r member => (denotes_meaning r member).le

def parts (sets : String → Language Char) : JsonSyntax.Part → Language Char
  | .value => sets "value"
  | .object => sets "object"
  | .array => sets "array"
  | .member => sets "member"
  | .contents of =>
    blanks isBlank + blanks isBlank * (parts sets of * (comma isBlank * parts sets of)∗) * blanks isBlank
  | .list of => parts sets of * (comma isBlank * parts sets of)∗

theorem collections_le_texts :
    texts isBlank .object + texts isBlank .array ≤ Definition.texts definitions "root" := by
  have distinct : (rules.map FragmentRule.name).Nodup := by decide
  let sets := Definition.texts definitions
  have allows : ∀ r ∈ rules, sets r.name = denotesAlternatives sets r.alternatives :=
    fun r member => FragmentRule.texts_eq distinct member
  simp only [rules, List.forall_mem_cons] at allows
  obtain ⟨root, value, object, member, array, strings, char, escape, number, ws, _⟩ := allows
  rw [denotes_ws] at ws
  rw [Fragment.denotesAlternatives_escape] at escape
  rw [Fragment.denotesAlternatives_character sets escape] at char
  rw [denotes_string sets char] at strings
  rw [denotes_number] at number
  rw [denotes_enclosed ws, Fragment.denotes_ofText, Fragment.denotes_ofText] at object array
  rw [denotes_member sets ws, strings] at member
  rw [denotes_value, strings, number] at value
  rw [denotes_root] at root
  have least : ∀ part, texts isBlank part ≤ parts sets part := by
    apply JsonSyntax.texts_least
    · exact value.ge
    · exact object.ge
    · exact array.ge
    · exact member.ge
    · exact fun of => le_refl _
    · intro of
      apply add_le
      · exact le_mul_of_one_le_right' one_le_kstar
      · rw [parts, mul_assoc]
        exact mul_le_mul_right kstar_mul_le_kstar (parts sets of)
  calc texts isBlank .object + texts isBlank .array ≤ sets "object" + sets "array" :=
        add_le_add (least .object) (least .array)
    _ = sets "root" := root.symm

theorem exists_json : ∃ grammar, Grammar.json = .ok grammar := by
  have resolved : (Grammar.resolve definitions "root" >>= fun found =>
      Grammar.checked true found.1 found.2).isOk = true := by decide +kernel
  have whole : Grammar.json = (Grammar.resolve definitions "root" >>= fun found =>
      Grammar.checked true found.1 found.2) := by
    rw [Grammar.json, Grammar.compile, Grammar.ofText_eq, Grammar.resolvedText, read_jsonText]
    rfl
  rw [whole]
  exact exists_of_isOk resolved

/-- The automaton of the grammar of JSON texts accepts an object or an array, with blanks inside of it but
none around it, and nothing else. -/
theorem accepting_iff_collection : ∃ grammar, Grammar.json = .ok grammar ∧
    ∀ w : List UInt8, (w.foldl grammar.automaton.step grammar.automaton.initial).accepting = true ↔
      ∃ text, (JsonSyntax.Derives isBlank .object text ∨ JsonSyntax.Derives isBlank .array text) ∧
        Utf8.encode text = w := by
  obtain ⟨grammar, compiled⟩ := exists_json
  obtain ⟨_, read, _, accepted⟩ := Grammar.accepting_iff_encoded compiled
  obtain rfl := Except.ok.inj (read_jsonText.symm.trans read)
  refine ⟨grammar, compiled, fun w => (accepted w).trans ?_⟩
  have same : Definition.texts definitions "root" = texts isBlank .object + texts isBlank .array :=
    le_antisymm (texts_le_meaning "root") collections_le_texts
  change w ∈ encoded (Definition.texts definitions "root") ↔ _
  rw [same]
  rfl

end GuidedDecoding.JsonText
