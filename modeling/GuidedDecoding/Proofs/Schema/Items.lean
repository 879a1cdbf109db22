import Mathlib
import GuidedDecoding.Proofs.Schema.Visibility

open scoped Computability

namespace GuidedDecoding.Conversion

open Fragment (Sequence denotesSequence)
open JsonSyntax (visible)

section

variable {settings : SchemaSettings} {json : Json} {final : State} {depth : Nat} {leading : List Schema}
  {extra : Extra Schema} {body : Sequence}

theorem Visit.exists_count {count : Except SchemaFault CountBounds}
    (visit : Visit settings json final depth (.array leading extra count) body) : ∃ bounds, count = .ok bounds := by
  have renders := visit.renders
  cases renders
  exact ⟨_, rfl⟩

end

section

variable (settings : SchemaSettings) (final : State) (depth : Nat) (leading : List Schema) (extra : Extra Schema)
  (least most : Option Nat)

def EmptyArray : Prop :=
  leading = [] ∧ (final.extraTexts settings (depth + 1) extra = none ∨ most = some 0 ∨
    settings.strict = false ∧ least.getD 0 = 0)

/-- If there are no further items, all items are listed. If there are, their number is within the bounds. -/
def ItemCount (n : Nat) : Prop :=
  final.extraTexts settings (depth + 1) extra = none ∧ n = leading.length ∨
    final.extraTexts settings (depth + 1) extra ≠ none ∧ max leading.length (least.getD 0) ≤ n ∧
      ∀ bound ∈ most, bound ≤ maxRepetition → n ≤ bound

/-- The arrays that a body matches: they have as many items as they can have, each of its own kind. -/
structure MatchesArrays (body : Sequence) : Prop where
  texts : ∀ text, text ∈ denotesSequence (final.texts settings) body ↔
    (∃ n, n ≠ 0 ∧ ItemCount settings final depth leading extra least most n ∧
      text ∈ (settings.layout depth).enclosed (final.texts settings) '[' ']'
        ((settings.layout depth).joined (final.texts settings)
          (leading.map (final.valueTexts settings (depth + 1)) ++
            List.replicate (n - leading.length) ((final.extraTexts settings (depth + 1) extra).getD 0)))) ∨
    EmptyArray settings final depth leading extra least most ∧
      text ∈ (settings.layout depth).bare (final.texts settings) '[' ']'
  empty : ∀ text ∈ (settings.layout depth).bare (final.texts settings) '[' ']',
    text ∈ denotesSequence (final.texts settings) body ↔ EmptyArray settings final depth leading extra least most
  accepted : ∀ grammar, final.Compiles settings body grammar → ∀ w : List UInt8,
    (w.foldl grammar.automaton.step grammar.automaton.initial).accepting = true ↔
      w ∈ encoded (denotesSequence (final.texts settings) body)

end

section

variable {settings : SchemaSettings} {json : Json} {final : State} {depth : Nat} {leading : List Schema}
  {extra : Extra Schema} {body : Sequence}

/-- The bounds on the number of items are those of the keywords, as far as repetitions can have them. -/
theorem Visit.matchesArrays {keywords : Keywords}
    (visit : Visit settings json final depth (.array leading extra (keywords.bounds "minItems" "maxItems")) body) :
    ∃ least most, keywords.bound? "minItems" = .ok least ∧ keywords.bound? "maxItems" = .ok most ∧
      MatchesArrays settings final depth leading extra least most body := by
  obtain ⟨count, bounds⟩ := visit.exists_count
  obtain ⟨least, most, lower, upper, min, max, _⟩ := Keywords.of_bounds_eq_ok bounds
  have closed : count.max = some 0 ↔ most = some 0 := by simp [max, Option.filter_eq_some_iff]
  have within (n : Nat) : (∀ bound ∈ count.max, n ≤ bound) ↔ ∀ bound ∈ most, bound ≤ maxRepetition → n ≤ bound := by
    simp [max, Option.filter_eq_some_iff]
  have all := Schema.mem_arrays settings (settings.layout depth) (final.texts settings)
    (leading.map (final.valueTexts settings (depth + 1))) (final.extraTexts settings (depth + 1) extra) count
  simp only [Schema.Counted, List.length_map, List.map_eq_nil_iff, min, closed, within] at all
  have texts := visit.texts_eq
  rw [State.valueTexts, bounds, Schema.valueTexts, Schema.textsOfEach_eq_map] at texts
  have matched (text : List Char) := (iff_of_eq (congrArg (text ∈ ·) texts)).trans (all text)
  refine ⟨least, most, lower, upper, fun text => ?_, fun text bare => ?_, fun grammar compiles w => ?_⟩
  · exact (matched text).trans (or_congr_left (exists_congr fun n => and_assoc))
  · obtain ⟨shown, further⟩ := visit.items_le visit.complete.any_le_visible visit.complete.body_le_visible
    refine (matched text).trans ⟨?_, fun empty => .inr ⟨empty, bare⟩⟩
    rintro (⟨n, ⟨some, counted⟩, matched⟩ | ⟨empty, _⟩)
    · refine absurd bare (Layout.notMem_bare (Layout.joined_le_visible ?_ ?_) matched)
      · cases leading with
        | nil => simpa using some
        | cons => simp
      · refine List.forall_mem_append.mpr ⟨List.forall_mem_map.mpr shown, fun item member => ?_⟩
        rw [List.eq_of_mem_replicate member]
        cases given : final.extraTexts settings (depth + 1) extra with
        | none => exact bot_le
        | some item => exact further item given
    · exact empty
  · exact visit.complete.accepting_iff compiles w

def nulls : List (String × Json) := [("items", .object [("type", .string "null")]), ("maxItems", .number (.integer 2))]

theorem matchesArrays_nulls : ∃ final body,
    Visit {} (.object nulls) final 0
      (.array [] (.schema (.annotated [] (.basic .null))) ((keywordsOf nulls).bounds "minItems" "maxItems")) body ∧
    ∃ least most, (keywordsOf nulls).bound? "minItems" = .ok least ∧ (keywordsOf nulls).bound? "maxItems" = .ok most ∧
      MatchesArrays {} final 0 [] (.schema (.annotated [] (.basic .null))) least most body := by
  have converts : ((Conversion.ofJson {} (.object nulls)).run.run {}).1.isOk = true := by with_unfolding_all decide
  obtain ⟨final, body, visit⟩ := Visit.exists_of_isOk converts
  have visit : Visit {} (.object nulls) final 0 (.annotated [] _) body := visit
  have visit := visit.of_annotated
  exact ⟨final, body, visit, visit.matchesArrays⟩

end

end GuidedDecoding.Conversion
