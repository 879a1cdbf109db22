import Mathlib
import GuidedDecoding.Proofs.Grammar.SyntaxErrors
import GuidedDecoding.Proofs.Schema.Document

namespace GuidedDecoding

open Fragment (Sequence)

namespace Conversion

section

variable {settings : SchemaSettings} {s : State} {body : Sequence}

theorem State.Names.legible {name : String} (stands : s.Names body name)
    (rules : ∀ rule ∈ s.rules.toList, rule.Legible) : ∀ f ∈ body, f.Legible := by
  rcases stands with rfl | rule
  · exact List.forall_mem_singleton.mpr (Fragment.legible_rule name)
  · exact (rules _ rule).legible body (by simp)

theorem Renders.legible_part {json : Json} (complete : Complete settings json s)
    (rules : ∀ rule ∈ s.rules.toList, rule.Legible) {depth : Nat} {schema part : Schema}
    (renders : Renders settings s depth schema body) (legible : ∀ f ∈ body, f.Legible)
    (among : schema.Part (Schema.resolver json) part) :
    ∃ depth body, Renders settings s depth part body ∧ ∀ f ∈ body, f.Legible := by
  cases renders with
  | annotated inner =>
    cases among
    exact ⟨_, _, inner, legible⟩
  | reference known =>
    cases among with
    | reference inside found =>
    rcases complete.reference_cases known with
      ⟨self, root, renders, rule⟩ | ⟨pointer, schema, depth, written, leads, resolved, _, renders, rule⟩
    · obtain rfl : [] = _ := by simpa [self] using inside
      cases found
      exact ⟨_, root, renders, (rules _ rule).legible root (by simp)⟩
    · obtain rfl : pointer = _ := by simpa using leads.symm.trans inside
      obtain rfl : schema = part := Option.some.inj (resolved.symm.trans found)
      exact ⟨depth, written, renders, (rules _ rule).legible written (by simp)⟩
  | union each stands =>
    cases among with
    | union member =>
      obtain ⟨m, listed, rfl⟩ := List.mem_map.mp member
      exact ⟨_, m.body, each m listed, (stands m listed).legible rules⟩
  | types each =>
    cases among with
    | types member =>
      obtain ⟨a, listed, rfl⟩ := List.mem_map.mp member
      have group := Fragment.legible_group.mp (legible _ (List.mem_singleton_self _))
      exact ⟨_, a.2, each a listed, (group.2 a.2 (List.mem_map_of_mem listed)).2⟩
  | array each stands =>
    obtain ⟨i, member, rfl⟩ := part_array_iff.mp among
    exact ⟨_, i.body, each i member, (stands i member).legible rules⟩
  | object each stands =>
    obtain ⟨i, member, rfl⟩ := part_object_iff.mp among
    exact ⟨_, i.body, each i member, (stands i member).legible rules⟩
  | _ => cases among

end

variable {settings : SchemaSettings} {json : Json} {final : State}

theorem Complete.readable_body (complete : Complete settings json final) {depth : Nat} {schema : Schema} {body : Sequence}
    (met : (documentCourse settings json).met depth schema) (renders : Renders settings final depth schema body) :
    ReadableBody (Schema.resolver json) schema body :=
  renders.readable _ complete.named fun _ uses => Schema.fits_of_uses (met.trans uses)

theorem Complete.spelled (complete : Complete settings json final) :
    ∀ rule ∈ CommonRules.all settings ++ final.rules.toList, rule.Spelled := by
  refine List.forall_mem_append.mpr ⟨fun rule member => (CommonRules.readable settings rule member).spelled, ?_⟩
  intro rule member
  rcases complete.accounts rule member with ⟨readable, _⟩ | ⟨depth, schema, body, met, renders, same⟩
  · exact readable.spelled
  · refine ⟨complete.named.rules rule member, ?_⟩
    rw [same]
    exact fun pieces among => List.mem_singleton.mp among ▸ (complete.readable_body met renders).spelled

theorem Complete.legible_iff (complete : Complete settings json final) :
    (∀ rule ∈ CommonRules.all settings ++ final.rules.toList, rule.Legible) ↔
      ¬(Schema.ofJson json).Uses (Schema.resolver json) (.types []) := by
  constructor
  · intro legible uses
    have rules := (List.forall_mem_append.mp legible).2
    have reached {part : Schema} (uses : (Schema.ofJson json).Uses (Schema.resolver json) part) :
        ∃ depth body, Renders settings final depth part body ∧ ∀ f ∈ body, f.Legible := by
      induction uses with
      | refl =>
        obtain ⟨root, renders, rule⟩ := complete.root
        exact ⟨0, root, renders, (rules _ rule).legible root (by simp)⟩
      | tail _ among ih =>
        obtain ⟨depth, body, renders, legible⟩ := ih
        exact renders.legible_part complete rules legible among
    obtain ⟨depth, body, renders, legible⟩ := reached uses
    generalize empty : Schema.types [] = schema at renders
    cases renders with
    | @types depth alternatives each =>
      obtain rfl : alternatives = [] := by simpa using empty
      exact (Fragment.legible_group.mp (legible _ (List.mem_singleton_self _))).1 rfl
    | _ => cases empty
  · intro typed
    refine List.forall_mem_append.mpr ⟨fun rule member => (CommonRules.readable settings rule member).legible, ?_⟩
    intro rule member
    rcases complete.accounts rule member with ⟨readable, _⟩ | ⟨depth, schema, body, met, renders, same⟩
    · exact readable.legible
    · have readable := complete.readable_body met renders
      have legible := readable.legible fun part uses same => typed (same ▸ met.trans uses)
      refine ⟨by simp [same], ?_, ?_⟩ <;> rw [same]
      · exact fun pieces among => List.mem_singleton.mp among ▸ readable.some
      · exact fun pieces among => List.mem_singleton.mp among ▸ legible

end Conversion

namespace Schema

theorem exists_syntaxError_iff {settings : SchemaSettings} {text : String} {ebnf : List Char}
    (converted : (grammarText settings text).1 = .ok ebnf) :
    (∃ place cause, (grammar settings text).1 = .error (.grammar (.syntaxError place cause))) ↔
      ∃ fault, Definition.read ebnf = .error fault := by
  have compiled : (grammar settings text).1 = (Grammar.ofText ebnf {}).mapError .grammar := by
    unfold grammar
    split <;> simp_all
  rw [compiled]
  constructor
  · rintro ⟨place, cause, failed⟩
    obtain ⟨error, failed, same⟩ := of_mapError_eq_error failed
    cases same
    obtain ⟨fault, unread, _⟩ := Grammar.ofText_eq_syntaxError_iff.mp failed
    exact ⟨fault, unread⟩
  · rintro ⟨fault, unread⟩
    rw [Grammar.ofText_eq_syntaxError_iff.mpr ⟨fault, unread, rfl, rfl⟩]
    exact ⟨_, _, rfl⟩

/-- The text that a schema is converted to can be read unless an empty list of types occurs in it, which is written
as an empty pair of parentheses. Nothing else in a converted schema becomes an error of syntax. -/
theorem read_iff_not_uses {settings : SchemaSettings} {text : String} {ebnf : List Char}
    (converted : (grammarText settings text).1 = .ok ebnf) :
    ∃ json, Json.read? text = some json ∧
      ((∃ definitions, Definition.read ebnf = .ok definitions) ↔ ¬(ofJson json).Uses (resolver json) (.types [])) ∧
      ((∃ place cause, (grammar settings text).1 = .error (.grammar (.syntaxError place cause))) ↔
        (ofJson json).Uses (resolver json) (.types [])) := by
  obtain ⟨json, final, known, run, written⟩ := Conversion.of_grammarText_eq_ok converted
  have complete := Conversion.complete run
  have inhabited : CommonRules.all settings ++ final.rules.toList ≠ [] := by simp [CommonRules.all, CommonRules.fixed]
  have read : (∃ definitions, Definition.read ebnf = .ok definitions) ↔
      ¬(ofJson json).Uses (resolver json) (.types []) := by
    have texts : FragmentRule.text = FragmentRule.spaced [] := funext FragmentRule.text_eq_spaced
    rw [← complete.legible_iff, ← written, texts]
    have all {definitions : List Definition} := @Definition.read_rules _ _ (List.forall_mem_nil _) (List.forall_mem_nil _) _
      inhabited complete.spelled definitions
    constructor
    · rintro ⟨definitions, read⟩
      exact (all.mp read).1
    · exact fun legible => ⟨_, all.mpr ⟨legible, rfl⟩⟩
  refine ⟨json, known, read, (exists_syntaxError_iff converted).trans (not_iff_not.mp (Iff.trans ?_ read))⟩
  cases Definition.read ebnf <;> simp

def nullable : String := "\x7b\"type\":[\"null\"]\x7d"

theorem read_iff_not_uses_nullable : ∃ ebnf, (grammarText {} nullable).1 = .ok ebnf ∧
    ∃ json, Json.read? nullable = some json ∧
      ((∃ definitions, Definition.read ebnf = .ok definitions) ↔ ¬(ofJson json).Uses (resolver json) (.types [])) ∧
      ((∃ place cause, (grammar {} nullable).1 = .error (.grammar (.syntaxError place cause))) ↔
        (ofJson json).Uses (resolver json) (.types [])) := by
  have converts : (grammarText {} nullable).1.isOk = true := by decide +kernel
  cases converted : (grammarText {} nullable).1 with
  | error fault =>
    rw [converted] at converts
    cases converts
  | ok ebnf => exact ⟨ebnf, rfl, read_iff_not_uses converted⟩

/-- A list of no types is converted all the same. -/
theorem grammar_typeless : (grammarText {} "\x7b\"type\":[]\x7d").1.isOk = true ∧
    (grammar {} "\x7b\"type\":[]\x7d").1.map (fun _ => ()) =
      .error (.grammar (.syntaxError ⟨11, 11⟩ .unbalancedParenthesis)) := by
  decide +kernel

end Schema

end GuidedDecoding
