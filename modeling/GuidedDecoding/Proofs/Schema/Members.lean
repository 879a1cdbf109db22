import Mathlib
import GuidedDecoding.Proofs.Schema.Visibility

open scoped Computability

namespace GuidedDecoding.Conversion

open Fragment (Sequence denotesSequence)
open JsonSyntax (visible)

section

variable (settings : SchemaSettings) (final : State) (depth : Nat) (properties : List (String × Bool × Schema))
  (extra : Extra Schema)

def listedPair (p : String × Bool × Schema) : Language Char :=
  (settings.layout depth).pairs (final.texts settings) {Json.quote p.1} (final.valueTexts settings (depth + 1) p.2.2)

def furtherPair : Language Char :=
  (settings.layout depth).pairs (final.texts settings) JsonSyntax.string
    ((final.extraTexts settings (depth + 1) extra).getD 0)

def EmptyObject : Prop :=
  properties = [] ∧ final.extraTexts settings (depth + 1) extra = none ∨
    settings.strict = false ∧ ∀ p ∈ properties, p.2.1 = false

/-- The objects that a body matches: of the listed members all that are required, then further ones if there can be
any. -/
structure MatchesObjects (body : Sequence) : Prop where
  texts : ∀ text, text ∈ denotesSequence (final.texts settings) body ↔
    (∃ chosen more, chosen.Sublist properties ∧ chosen.filter (·.2.1) = properties.filter (·.2.1) ∧
      (final.extraTexts settings (depth + 1) extra = none → more = 0) ∧ (chosen ≠ [] ∨ more ≠ 0) ∧
      text ∈ (settings.layout depth).enclosed (final.texts settings) '\x7b' '\x7d'
        ((settings.layout depth).joined (final.texts settings)
          (chosen.map (listedPair settings final depth) ++ List.replicate more (furtherPair settings final depth extra)))) ∨
    EmptyObject settings final depth properties extra ∧
      text ∈ (settings.layout depth).bare (final.texts settings) '\x7b' '\x7d'
  empty : ∀ text ∈ (settings.layout depth).bare (final.texts settings) '\x7b' '\x7d',
    text ∈ denotesSequence (final.texts settings) body ↔ EmptyObject settings final depth properties extra
  accepted : ∀ grammar, final.Compiles settings body grammar → ∀ w : List UInt8,
    (w.foldl grammar.automaton.step grammar.automaton.initial).accepting = true ↔
      w ∈ encoded (denotesSequence (final.texts settings) body)

end

section

variable {settings : SchemaSettings} {json : Json} {final : State} {depth : Nat}
  {properties : List (String × Bool × Schema)} {extra : Extra Schema} {body : Sequence}

theorem listedPair_le_visible (p : String × Bool × Schema) : listedPair settings final depth p ≤ visible :=
  Layout.pairs_le_visible ((Set.singleton_subset_iff.mpr (Json.quote_mem_string p.1)).trans JsonSyntax.string_le_visible)

theorem furtherPair_le_visible : furtherPair settings final depth extra ≤ visible :=
  Layout.pairs_le_visible JsonSyntax.string_le_visible

theorem Visit.mem_iff (visit : Visit settings json final depth (.object properties extra) body) (text : List Char) :
    text ∈ denotesSequence (final.texts settings) body ↔
      (∃ chosen more, chosen.Sublist properties ∧ chosen.filter (·.2.1) = properties.filter (·.2.1) ∧
        (final.extraTexts settings (depth + 1) extra = none → more = 0) ∧ (chosen ≠ [] ∨ more ≠ 0) ∧
        text ∈ (settings.layout depth).enclosed (final.texts settings) '\x7b' '\x7d'
          ((settings.layout depth).joined (final.texts settings)
            (chosen.map (listedPair settings final depth) ++ List.replicate more (furtherPair settings final depth extra)))) ∨
      EmptyObject settings final depth properties extra ∧
        text ∈ (settings.layout depth).bare (final.texts settings) '\x7b' '\x7d' := by
  let memberTexts (p : String × Bool × Schema) : Bool × Language Char := (p.2.1, listedPair settings final depth p)
  have texts : denotesSequence (final.texts settings) body = Schema.objects settings (settings.layout depth)
      (final.texts settings) (properties.map memberTexts) (final.extraTexts settings (depth + 1) extra) := by
    rw [visit.texts_eq, State.valueTexts, Schema.valueTexts, Schema.textsOfMembers_eq_map]
    rfl
  have empty : (properties.map memberTexts = [] ∧ final.extraTexts settings (depth + 1) extra = none ∨
      settings.strict = false ∧ ∀ m ∈ properties.map memberTexts, m.1 = false) ↔
      EmptyObject settings final depth properties extra := by
    rw [List.map_eq_nil_iff, List.forall_mem_map]
    rfl
  have pairs (chosen : List (String × Bool × Schema)) :
      (chosen.map memberTexts).map Prod.snd = chosen.map (listedPair settings final depth) := List.map_map
  have matched := (iff_of_eq (congrArg (text ∈ ·) texts)).trans (Schema.mem_objects settings
    (settings.layout depth) (final.texts settings) _ _ text)
  simp only [selects_map, empty] at matched
  refine matched.trans (or_congr_left ?_)
  constructor
  · rintro ⟨_, more, ⟨chosen, ⟨sublist, required⟩, rfl⟩, allowed, some, inside⟩
    rw [pairs] at inside
    exact ⟨chosen, more, sublist, required, allowed, by simpa using some, inside⟩
  · rintro ⟨chosen, more, sublist, required, allowed, some, inside⟩
    rw [← pairs] at inside
    exact ⟨_, more, ⟨chosen, ⟨sublist, required⟩, rfl⟩, allowed, by simpa using some, inside⟩

theorem Visit.matchesObjects (visit : Visit settings json final depth (.object properties extra) body) :
    MatchesObjects settings final depth properties extra body := by
  refine ⟨visit.mem_iff, fun text bare => (visit.mem_iff text).trans ⟨?_, fun empty => .inr ⟨empty, bare⟩⟩,
    fun grammar compiles w => visit.complete.accepting_iff compiles w⟩
  rintro (⟨chosen, more, _, _, _, some, inside⟩ | ⟨empty, _⟩)
  · refine absurd bare (Layout.notMem_bare (Layout.joined_le_visible ?_ ?_) inside)
    · intro nothing
      obtain ⟨none, last⟩ := List.append_eq_nil_iff.mp nothing
      rcases some with some | some
      · exact some (List.map_eq_nil_iff.mp none)
      · exact some (List.replicate_eq_nil_iff _ |>.mp last)
    · refine List.forall_mem_append.mpr ⟨List.forall_mem_map.mpr fun p _ => listedPair_le_visible p, fun pair member => ?_⟩
      rw [List.eq_of_mem_replicate member]
      exact furtherPair_le_visible
  · exact empty

def labelled : List (String × Json) :=
  [("properties", .object [("id", .object [("type", .string "integer")]), ("label", .object [("type", .string "string")])]),
    ("required", .array [.string "id"])]

theorem matchesObjects_labelled : ∃ final body,
    Visit {} (.object labelled) final 0
      (.object [("id", true, .annotated [] (.basic .integer)), ("label", false, .annotated [] (.text (.ok ⟨0, none, none⟩)))]
        .unspecified) body ∧
    MatchesObjects {} final 0
      [("id", true, .annotated [] (.basic .integer)), ("label", false, .annotated [] (.text (.ok ⟨0, none, none⟩)))]
      .unspecified body := by
  have converts : ((Conversion.ofJson {} (.object labelled)).run.run {}).1.isOk = true := by with_unfolding_all decide
  obtain ⟨final, body, visit⟩ := Visit.exists_of_isOk converts
  have visit : Visit {} (.object labelled) final 0 (.annotated [] _) body := visit
  have visit := visit.of_annotated
  exact ⟨final, body, visit, visit.matchesObjects⟩

end

end GuidedDecoding.Conversion
