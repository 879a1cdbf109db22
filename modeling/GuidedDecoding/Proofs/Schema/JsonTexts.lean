import Mathlib
import GuidedDecoding.Proofs.Schema.JsonValues

open scoped Computability

namespace GuidedDecoding

open JsonSyntax (isSpace texts)

namespace Schema

theorem exists_rules {settings : SchemaSettings} (surrounded : settings.Surrounded) {text : String}
    {grammar : Grammar} (converted : (Schema.grammar settings text).1 = .ok grammar) :
    ∃ (promises : Promises) (rules : List FragmentRule), promises.made "root" (texts isSpace .value) ∧
      promises.KeptBy rules ∧ (∀ rule ∈ rules, rule.Spelled) ∧
      Grammar.ofText (rules.flatMap FragmentRule.text) {} = .ok grammar := by
  obtain ⟨json, final, _, run, compiled⟩ := exists_compiled converted
  have complete := Conversion.complete run
  have placed := complete.placed (SchemaSettings.words_json surrounded)
  obtain ⟨root, renders, rule⟩ := complete.root
  exact ⟨placed.promises, final.allRules settings, .inr (.inl ⟨0, ⟨_, root, trivial, renders, rule⟩, rfl⟩), placed.kept,
    complete.spelled, compiled⟩

/-- Whatever the schema asks for and however its arrays and objects are laid out, its grammar accepts JSON texts
only. -/
theorem document_of_accepting {settings : SchemaSettings} (surrounded : settings.Surrounded) {text : String}
    {grammar : Grammar} (converted : (Schema.grammar settings text).1 = .ok grammar) {w : List UInt8}
    (accepting : (w.foldl grammar.automaton.step grammar.automaton.initial).accepting = true) :
    ∃ content ∈ JsonSyntax.document isSpace, Utf8.encode content = w := by
  obtain ⟨promises, rules, rooted, kept, spelled, compiled⟩ := exists_rules surrounded converted
  have inhabited : rules ≠ [] := by
    rintro rfl
    obtain ⟨_, none, _⟩ := kept "root" _ rooted
    cases none
  obtain ⟨distinct, accepted⟩ := FragmentRule.accepting_iff_encoded inhabited spelled compiled
  obtain ⟨content, member, encoded⟩ := (accepted w).mp accepting
  exact ⟨content, JsonSyntax.value_le_document (kept.texts distinct "root" _ rooted member), encoded⟩

def returning : SchemaSettings := { anyWhitespace := false, separators := some (",\r", ":"), strict := false }

theorem surrounded_returning : returning.Surrounded := by
  intro separators given
  cases given
  exact ⟨JsonSyntax.surrounded_mem ',' (List.forall_mem_nil _) (by simp [isSpace] : ∀ c ∈ ['\r'], isSpace c),
    JsonSyntax.surrounded_mem ':' (List.forall_mem_nil _) (List.forall_mem_nil _)⟩

theorem document_of_accepting_returning : returning.Surrounded ∧ ∃ grammar : Grammar,
    (Schema.grammar returning "\x7b\"items\":\x7b\"$ref\":\"#\"\x7d\x7d").1 = .ok grammar ∧
      ((Utf8.encode "[[],\r[]]".toList).foldl grammar.automaton.step
        grammar.automaton.initial).accepting = true ∧
      ∃ content ∈ JsonSyntax.document isSpace, Utf8.encode content = Utf8.encode "[[],\r[]]".toList := by
  have accepts : ((Schema.grammar returning "\x7b\"items\":\x7b\"$ref\":\"#\"\x7d\x7d").1.toOption.any fun grammar =>
      ((Utf8.encode "[[],\r[]]".toList).foldl grammar.automaton.step
        grammar.automaton.initial).accepting) = true := by decide +kernel
  cases converted : (Schema.grammar returning "\x7b\"items\":\x7b\"$ref\":\"#\"\x7d\x7d").1 with
  | error fault =>
    rw [converted] at accepts
    cases accepts
  | ok grammar =>
    rw [converted] at accepts
    exact ⟨surrounded_returning, grammar, rfl, accepts,
      document_of_accepting surrounded_returning converted accepts⟩

end Schema

end GuidedDecoding
