import Mathlib
import GuidedDecoding.Proofs.Schema.Compiling
import GuidedDecoding.Proofs.Schema.Termination

namespace GuidedDecoding

open Fragment (Sequence denotesSequence)

namespace Schema

/-- The schema is converted, and its grammar compiles, with and without normalization, and accepts exactly these byte
strings. So does the grammar of any JSON text that is read as the schema. -/
structure Accepts (settings : SchemaSettings) (json : Json) (bytes : Language UInt8) : Prop where
  compiles : ∃ rules, (ownRules settings json).1 = .ok rules ∧ ∀ normalize, ∃ grammar,
    Grammar.ofText ((CommonRules.all settings ++ rules).flatMap FragmentRule.text) ⟨"root", normalize⟩ = .ok grammar ∧
      ∀ w : List UInt8, (w.foldl grammar.automaton.step grammar.automaton.initial).accepting = true ↔ w ∈ bytes
  grammar : ∀ text, Json.read? text = some json → ∃ grammar, (Schema.grammar settings text).1 = .ok grammar ∧
    ∀ w : List UInt8, (w.foldl grammar.automaton.step grammar.automaton.initial).accepting = true ↔ w ∈ bytes

/-- A schema without parts. It is written in one way only, which adds no rule and enters none first but those that every
schema may refer to, and its texts do not depend on other rules. -/
structure Leaf (settings : SchemaSettings) (schema : Schema) (body : Sequence) (texts : Language Char) : Prop where
  whole : ∀ resolve part, ¬Part resolve schema part
  typed : schema ≠ .types []
  written : ∀ reference rule depth s, ∃ s', s'.rules = s.rules ∧
    (Conversion.body settings reference rule depth schema).run.run s = (.ok body, s')
  entered : ∀ name ∈ Fragment.sequenceLeadNames body, name ∈ (CommonRules.all {}).map FragmentRule.name
  means : ∀ known rules depth, valueTexts settings known rules depth schema = texts

section

variable {settings : SchemaSettings} {json : Json} {ignored : List String} {schema : Schema} {body : Sequence}
  {texts : Language Char} (stands : ofJson json = .annotated ignored schema) (leaf : Leaf settings schema body texts)

include leaf in
theorem Leaf.exists_run_annotated (ignored : List String) (reference : String → String → Nat → Conversion Sequence)
    (rule : String) (depth : Nat) (s : Conversion.State) : ∃ s', s'.rules = s.rules ∧
      (Conversion.body settings reference rule depth (.annotated ignored schema)).run.run s = (.ok body, s') := by
  have reported : ∃ s', s'.rules = s.rules ∧
      (ignored.forM fun keyword => Conversion.report (.ignoredKeyword keyword rule)).run.run s = (.ok (), s') := by
    induction ignored generalizing s with
    | nil => exact ⟨s, rfl, rfl⟩
    | cons keyword ignored ih => exact ih { s with events := s.events.push (.ignoredKeyword keyword rule) }
  obtain ⟨middle, kept, first⟩ := reported
  obtain ⟨last, same, second⟩ := leaf.written reference rule depth middle
  refine ⟨last, same.trans kept, ?_⟩
  rw [Conversion.body, Conversion.run_bind_eq, first]
  exact second

include stands leaf

theorem Leaf.exists_run :
    ∃ final, (Conversion.ofJson settings json).run.run {} = (.ok (), final) ∧ final.rules = #[⟨"root", [body]⟩] := by
  have written (nesting : Nat) : ∃ s', s'.rules = #[] ∧
      (Conversion.expanded settings (resolver json) nesting "root" 0 (ofJson json)).run.run {} = (.ok body, s') := by
    rw [stands]
    cases nesting <;> exact leaf.exists_run_annotated ignored _ "root" 0 {}
  obtain ⟨last, none, ran⟩ := written json.references.length
  have run := Conversion.run_bind_eq
    (Conversion.expanded settings (resolver json) json.references.length "root" 0 (ofJson json))
    (fun root => Conversion.addRule "root" [root]) {}
  rw [ran] at run
  exact ⟨{ last with rules := last.rules.push ⟨"root", [body]⟩ }, run, by rw [none]; rfl⟩

theorem Leaf.not_uses_typeless : ¬(ofJson json).Uses (resolver json) (.types []) := by
  rw [stands]
  intro uses
  obtain same | ⟨part, among, uses⟩ := Relation.ReflTransGen.cases_head uses
  · cases same
  · cases among
    obtain same | ⟨part, among, _⟩ := Relation.ReflTransGen.cases_head uses
    · exact leaf.typed same
    · exact leaf.whole _ _ among

theorem Leaf.accepts : Accepts settings json (encoded texts) := by
  obtain ⟨final, finished, single⟩ := leaf.exists_run stands
  have own : (ownRules settings json).1 = .ok final.rules.toList := by
    rw [ownRules, finished]
    rfl
  obtain ⟨root, visit, rule⟩ := Conversion.Visit.exists_root finished
  obtain rfl : root = body := by simpa [single] using rule
  have complete := visit.complete
  have matched : denotesSequence (final.texts settings) root = texts := by
    rw [stands] at visit
    exact visit.of_annotated.texts_eq.trans (leaf.means _ _ _)
  have flat : ∀ rule ∈ final.rules.toList, ∀ name ∈ rule.leadNames, name ∈ (CommonRules.all {}).map FragmentRule.name := by
    simpa [single, FragmentRule.leadNames, Fragment.alternativeLeadNames] using leaf.entered
  have compiled (normalize : Bool) : ∃ grammar,
      Grammar.ofText ((CommonRules.all settings ++ final.rules.toList).flatMap FragmentRule.text) ⟨"root", normalize⟩ =
          .ok grammar ∧
        ∀ w : List UInt8, (w.foldl grammar.automaton.step grammar.automaton.initial).accepting = true ↔
          w ∈ encoded texts := by
    obtain ⟨grammar, compiled⟩ := complete.exists_ofText (leaf.not_uses_typeless stands) flat normalize
    have accepted := complete.accepting_iff ⟨⟨"root", normalize⟩, rule, compiled⟩
    rw [matched] at accepted
    exact ⟨grammar, compiled, accepted⟩
  refine ⟨⟨final.rules.toList, own, compiled⟩, fun text read => ?_⟩
  obtain ⟨grammar, compiled, accepted⟩ := compiled true
  refine ⟨grammar, ?_, accepted⟩
  simp only [Schema.grammar, grammarText, read, ownRules, finished]
  exact congrArg (Except.mapError _) compiled

end

theorem sequenceLeadNames_valueText (value : Json) : Fragment.sequenceLeadNames [Conversion.valueText value] = [] := by
  rw [Fragment.sequenceLeadNames, Conversion.valueText, Fragment.leadNames_ofText, Fragment.sequenceLeadNames, ite_self,
    List.append_nil]

theorem leaf_constant (settings : SchemaSettings) (value : Json) :
    Leaf settings (.constant value) [Conversion.valueText value] {value.text} where
  whole _ _ among := by cases among
  typed := by simp
  written reference rule depth s := ⟨s, rfl, by rw [Conversion.body]; rfl⟩
  entered := by simp [sequenceLeadNames_valueText]
  means known rules depth := by rw [valueTexts]

theorem leaf_enumeration (settings : SchemaSettings) (values : List Json) :
    Leaf settings (.enumeration values) [.group (values.map fun value => [Conversion.valueText value])]
      {text | ∃ value ∈ values, value.text = text} where
  whole _ _ among := by cases among
  typed := by simp
  written reference rule depth s := ⟨s, rfl, by rw [Conversion.body]; rfl⟩
  entered := by
    have none : Fragment.alternativeLeadNames (values.map fun value => [Conversion.valueText value]) = [] := by
      induction values with
      | nil => rw [List.map_nil, Fragment.alternativeLeadNames]
      | cons value values ih =>
        rw [List.map_cons, Fragment.alternativeLeadNames, sequenceLeadNames_valueText, ih, List.append_nil]
    simp [Fragment.sequenceLeadNames, Fragment.leadNames, none]
  means known rules depth := by rw [valueTexts]

theorem ofJson_constant (value : Json) : ofJson (.object [("const", value)]) = .annotated [] (.constant value) := by
  have known : ofJson (.object [("const", value)]) = .annotated [] (.constant (Reading.ofJson value).value) := rfl
  rw [known, Reading.value_ofJson]

theorem ofJson_enumeration {values : List Json} (some : values ≠ []) :
    ofJson (.object [("enum", .array values)]) = .annotated [] (.enumeration values) := by
  obtain ⟨value, rest, rfl⟩ := List.exists_cons_of_ne_nil some
  rfl

/-- The grammar of a constant accepts the compact text of the value and nothing else, that of an enumeration the compact
texts of its values. Whatever the values are, both grammars compile. -/
theorem accepts_listed (settings : SchemaSettings) :
    (∀ value : Json, Accepts settings (.object [("const", value)]) {Utf8.encode value.text}) ∧
      ∀ values : List Json, values ≠ [] →
        Accepts settings (.object [("enum", .array values)]) {w | ∃ value ∈ values, Utf8.encode value.text = w} := by
  refine ⟨fun value => ?_, fun values some => ?_⟩
  · rw [← encoded_singleton]
    exact (leaf_constant settings value).accepts (ofJson_constant value)
  · have accepts := (leaf_enumeration settings values).accepts (ofJson_enumeration some)
    have bytes : encoded {text | ∃ value ∈ values, value.text = text} =
        {w | ∃ value ∈ values, Utf8.encode value.text = w} := by
      ext w
      constructor
      · rintro ⟨_, ⟨value, member, rfl⟩, rfl⟩
        exact ⟨value, member, rfl⟩
      · rintro ⟨value, member, rfl⟩
        exact ⟨value.text, ⟨value, member, rfl⟩, rfl⟩
    rwa [bytes] at accepts

def marks : Json := .string "\"\\\u0080"

theorem accepts_listed_marks :
    Accepts {} (.object [("const", marks)]) {[34, 92, 34, 92, 92, 194, 128, 34]} ∧ [marks, .null] ≠ [] ∧
      Accepts {} (.object [("enum", .array [marks, .null])]) {w | ∃ value ∈ [marks, .null], Utf8.encode value.text = w} := by
  have bytes : Utf8.encode marks.text = [34, 92, 34, 92, 92, 194, 128, 34] := by with_unfolding_all decide
  have some : [marks, .null] ≠ [] := by simp
  exact ⟨bytes ▸ (accepts_listed {}).1 marks, some, (accepts_listed {}).2 [marks, .null] some⟩

end Schema

end GuidedDecoding
