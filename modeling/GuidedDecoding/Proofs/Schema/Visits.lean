import Mathlib
import GuidedDecoding.Proofs.Schema.SyntaxErrors
import GuidedDecoding.Proofs.Schema.Values

open scoped Computability

namespace GuidedDecoding

open Fragment (Sequence denotes denotesSequence denotesAlternatives)

namespace Conversion

def State.allRules (settings : SchemaSettings) (s : State) : List FragmentRule :=
  CommonRules.all settings ++ s.rules.toList

/-- The texts that the rules of a state match. -/
def State.texts (settings : SchemaSettings) (s : State) : String → Language Char :=
  Definition.texts ((s.allRules settings).map FragmentRule.definition)

def State.valueTexts (settings : SchemaSettings) (s : State) (depth : Nat) : Schema → Language Char :=
  Schema.valueTexts settings s.reference? (s.texts settings) depth

def State.extraTexts (settings : SchemaSettings) (s : State) (depth : Nat) : Extra Schema → Option (Language Char) :=
  Schema.textsOfExtra settings s.reference? (s.texts settings) depth

/-- Grammars with all rules and with one of this body as the main rule. -/
def State.Compiles (settings : SchemaSettings) (s : State) (body : Sequence) (grammar : Grammar) : Prop :=
  ∃ grammarSettings : GrammarSettings, ⟨grammarSettings.mainRule, [body]⟩ ∈ s.rules.toList ∧
    Grammar.ofText ((s.allRules settings).flatMap FragmentRule.text) grammarSettings = .ok grammar

/-- In the course of a conversion that succeeds, a schema has been visited and has got a body. -/
structure Visit (settings : SchemaSettings) (json : Json) (final : State) (depth : Nat) (schema : Schema)
    (body : Sequence) : Prop where
  finished : (Conversion.ofJson settings json).run.run {} = (.ok (), final)
  uses : (Schema.ofJson json).Uses (Schema.resolver json) schema
  visited : ∃ nesting rule s s', Token.IsName rule ∧ s'.Within final ∧
    (expanded settings (Schema.resolver json) nesting rule depth schema).run.run s = (.ok body, s')

section

variable {settings : SchemaSettings} {json : Json} {final : State}

namespace Complete

variable (complete : Complete settings json final)
include complete

theorem texts_eq {rule : FragmentRule} (member : rule ∈ final.allRules settings) :
    final.texts settings rule.name = denotesAlternatives (final.texts settings) rule.alternatives :=
  FragmentRule.texts_eq complete.distinct member

theorem solved : final.SolvedBy (final.texts settings) :=
  fun _ member => complete.texts_eq (List.mem_append_right _ member)

theorem common : CommonRules.SolvedBy (final.texts settings) :=
  CommonRules.solvedBy_of_fixed fun _ member =>
    complete.texts_eq (List.mem_append_left _ (List.mem_append_left _ member))

theorem accepting_iff {body : Sequence} {grammar : Grammar} (compiles : final.Compiles settings body grammar)
    (w : List UInt8) : (w.foldl grammar.automaton.step grammar.automaton.initial).accepting = true ↔
      w ∈ encoded (denotesSequence (final.texts settings) body) := by
  obtain ⟨grammarSettings, rule, compiled⟩ := compiles
  have inhabited : final.allRules settings ≠ [] := by simp [State.allRules, CommonRules.all, CommonRules.fixed]
  have accepted := (FragmentRule.accepting_iff_encoded inhabited complete.spelled compiled).2 w
  have texts := complete.solved _ rule
  rw [Fragment.denotesAlternatives_singleton] at texts
  exact accepted.trans (iff_of_eq (congrArg (w ∈ encoded ·) texts))

end Complete

namespace Visit

variable {depth : Nat} {schema : Schema} {body : Sequence}

theorem exists_root (finished : (Conversion.ofJson settings json).run.run {} = (.ok (), final)) :
    ∃ body, Visit settings json final 0 (Schema.ofJson json) body ∧ ⟨"root", [body]⟩ ∈ final.rules.toList := by
  obtain ⟨root, last, ran, added⟩ := run_bind finished
  cases added
  have within : last.Within { last with rules := last.rules.push ⟨"root", [root]⟩ } :=
    ⟨fun rule member => by simp [member], fun _ _ => id⟩
  exact ⟨root, ⟨finished, .refl, _, "root", {}, last, by decide, within, ran⟩, by simp⟩

theorem exists_of_isOk (converts : ((Conversion.ofJson settings json).run.run {}).1.isOk = true) :
    ∃ final body, Visit settings json final 0 (Schema.ofJson json) body := by
  rcases finished : (Conversion.ofJson settings json).run.run {} with ⟨fault | ⟨⟩, final⟩
  · rw [finished] at converts
    cases converts
  · obtain ⟨body, visit, _⟩ := exists_root finished
    exact ⟨final, body, visit⟩

theorem of_annotated {ignored : List String} (visit : Visit settings json final depth (.annotated ignored schema) body) :
    Visit settings json final depth schema body := by
  obtain ⟨nesting, rule, s, s', isName, within, run⟩ := visit.visited
  refine ⟨visit.finished, visit.uses.tail .annotated, nesting, rule, ?_⟩
  cases nesting with
  | zero =>
    rw [expanded, Conversion.body] at run
    obtain ⟨_, middle, _, run⟩ := run_bind run
    exact ⟨middle, s', isName, within, run⟩
  | succ nesting =>
    rw [expanded, Conversion.body] at run
    obtain ⟨_, middle, _, run⟩ := run_bind run
    exact ⟨middle, s', isName, within, run⟩

section

variable (visit : Visit settings json final depth schema body)
include visit

theorem complete : Complete settings json final := Conversion.complete visit.finished

theorem renders : Renders settings final depth schema body := by
  obtain ⟨nesting, rule, s, s', isName, within, run⟩ := visit.visited
  have met : (documentCourse settings json).met depth schema := visit.uses
  have builds := Course.builds_expanded nesting isName met
  exact ((builds s body s' run).2 final within visit.complete.named trivial).2

theorem fits : ∀ part, schema.Uses (Schema.resolver json) part → part.Fits :=
  fun _ uses => Schema.fits_of_uses (visit.uses.trans uses)

/-- The body matches what the schema means. -/
theorem texts_eq : denotesSequence (final.texts settings) body = final.valueTexts settings depth schema :=
  visit.renders.texts_eq (Schema.resolver json) visit.complete.common visit.complete.solved visit.fits

end

end Visit

section

variable {language : Language Char} {depth : Nat}

theorem State.extraTexts_le (any : final.texts settings "basic_any" ≤ language) {extra : Extra Inner}
    (each : ∀ i ∈ extra.toList, final.valueTexts settings depth i.schema ≤ language) :
    ∀ texts ∈ final.extraTexts settings depth (extra.map Inner.schema), texts ≤ language := by
  intro texts given
  rw [State.extraTexts] at given
  cases extra with
  | forbidden =>
    rw [Extra.map, Schema.textsOfExtra] at given
    cases given
  | unspecified =>
    rw [Extra.map, Schema.textsOfExtra] at given
    split_ifs at given
    · cases given
    · cases given
      exact any
  | schema inner =>
    rw [Extra.map, Schema.textsOfExtra] at given
    cases given
    exact each inner (List.mem_singleton_self inner)

variable (any : final.texts settings "basic_any" ≤ language)
  (values : ∀ {depth : Nat} {schema : Schema} {body : Sequence}, Renders settings final depth schema body →
    denotesSequence (final.texts settings) body ≤ language)
include values

theorem Complete.inner_le (complete : Complete settings json final) {inner : Inner}
    (renders : Renders settings final depth inner.schema inner.body)
    (fits : ∀ part, inner.schema.Uses (Schema.resolver json) part → part.Fits) :
    final.valueTexts settings depth inner.schema ≤ language := by
  have same := renders.texts_eq (Schema.resolver json) complete.common complete.solved fits
  exact same.symm.trans_le (values renders)

variable {extra : Extra Schema} {body : Sequence}
include any

theorem Visit.items_le {leading : List Schema} {count : Except SchemaFault CountBounds}
    (visit : Visit settings json final depth (.array leading extra count) body) :
    (∀ schema ∈ leading, final.valueTexts settings (depth + 1) schema ≤ language) ∧
      ∀ texts ∈ final.extraTexts settings (depth + 1) extra, texts ≤ language := by
  have fits := visit.fits
  have renders := visit.renders
  cases renders with
  | @array _ inners further bounds _ each =>
    have part (i : Inner) (member : i ∈ inners ++ further.toList) : final.valueTexts settings (depth + 1) i.schema ≤ language :=
      visit.complete.inner_le values (each i member) fun _ uses => fits _ (.head (part_array_iff.mpr ⟨i, member, rfl⟩) uses)
    exact ⟨List.forall_mem_map.mpr fun i member => part i (List.mem_append_left _ member),
      State.extraTexts_le any fun i member => part i (List.mem_append_right _ member)⟩

theorem Visit.members_le {properties : List (String × Bool × Schema)}
    (visit : Visit settings json final depth (.object properties extra) body) :
    (∀ p ∈ properties, final.valueTexts settings (depth + 1) p.2.2 ≤ language) ∧
      ∀ texts ∈ final.extraTexts settings (depth + 1) extra, texts ≤ language := by
  have fits := visit.fits
  have renders := visit.renders
  cases renders with
  | @object _ inners further _ each =>
    have part (i : Inner) (member : i ∈ inners.map (·.2.2) ++ further.toList) :
        final.valueTexts settings (depth + 1) i.schema ≤ language :=
      visit.complete.inner_le values (each i member) fun _ uses => fits _ (.head (part_object_iff.mpr ⟨i, member, rfl⟩) uses)
    exact ⟨List.forall_mem_map.mpr fun p member => part p.2.2 (List.mem_append_left _ (List.mem_map_of_mem member)),
      State.extraTexts_le any fun i member => part i (List.mem_append_right _ member)⟩

end

end

end Conversion

theorem Schema.exists_compiled {settings : SchemaSettings} {text : String} {grammar : Grammar}
    (converted : (Schema.grammar settings text).1 = .ok grammar) :
    ∃ json final, Json.read? text = some json ∧ (Conversion.ofJson settings json).run.run {} = (.ok (), final) ∧
      Grammar.ofText ((final.allRules settings).flatMap FragmentRule.text) {} = .ok grammar := by
  rw [Schema.grammar] at converted
  split at converted
  next => cases converted
  next written =>
    obtain ⟨json, final, read, run, rfl⟩ := Conversion.of_grammarText_eq_ok (congrArg Prod.fst written)
    exact ⟨json, final, read, run, of_mapError_eq_ok converted⟩

end GuidedDecoding
