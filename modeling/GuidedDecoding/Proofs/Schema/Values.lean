import Mathlib
import GuidedDecoding.Proofs.Schema.Document
import GuidedDecoding.Proofs.Schema.Forms

open scoped Computability

namespace GuidedDecoding

open Fragment (Sequence denotes denotesSequence denotesAlternatives)

structure CommonRules.SolvedBy (rules : String → Language Char) : Prop where
  string : rules "basic_string" = JsonSyntax.string
  character : rules "basic_char" = JsonSyntax.character
  basic : ∀ type, rules (Conversion.basicRule type) = Schema.basicTexts type

theorem CommonRules.solvedBy_of_fixed {rules : String → Language Char}
    (solved : ∀ rule ∈ fixed, rules rule.name = denotesAlternatives rules rule.alternatives) : SolvedBy rules := by
  simp only [fixed, List.forall_mem_cons] at solved
  obtain ⟨escape, character, string, integer, number, boolean, null, _⟩ := solved
  rw [Fragment.denotesAlternatives_escape] at escape
  rw [Fragment.denotesAlternatives_character rules escape] at character
  rw [Fragment.denotesAlternatives_singleton] at string integer number null
  refine ⟨string.trans (Fragment.denotesSequence_string rules character), character, fun type => ?_⟩
  cases type with
  | integer => exact integer.trans (Fragment.denotesSequence_whole rules)
  | number => exact number.trans (Fragment.denotesSequence_number rules)
  | boolean => exact boolean.trans (by simp; rfl)
  | null => exact null.trans (by simp; rfl)

theorem Fragment.mem_denotesSequence_group {α : Type} {rules : String → Language Char} {items : List α}
    {pieces : α → Sequence} {text : List Char} :
    text ∈ denotesSequence rules [.group (items.map pieces)] ↔ ∃ a ∈ items, text ∈ denotesSequence rules (pieces a) := by
  rw [denotesSequence_singleton, denotes_group, mem_denotesAlternatives]
  simp only [List.mem_map, exists_exists_and_eq_and]

namespace Schema

section

variable {settings : SchemaSettings} {known : String → Option String} {rules : String → Language Char}

theorem mem_textsOfAny {α : Type} {depth : Nat} {items : List α} {schema : α → Schema} {text : List Char} :
    text ∈ textsOfAny settings known rules depth (items.map schema) ↔
      ∃ a ∈ items, text ∈ valueTexts settings known rules depth (schema a) := by
  induction items with
  | nil => exact iff_of_false (by rw [List.map_nil, textsOfAny]; exact Set.notMem_empty text) (by simp)
  | cons a items ih => rw [List.map_cons, textsOfAny, Language.mem_add, ih, List.exists_mem_cons_iff]

end

theorem denotes_stringText {rules : String → Language Char} (solved : CommonRules.SolvedBy rules) {count : CountBounds}
    (bounds : Quantifiable count.min count.max) : denotesSequence rules (Conversion.stringText count) = strings count := by
  have within : strings count = {['"']} *
      anyOf (fun n => count.min ≤ n ∧ ∀ most ∈ count.max, n ≤ most) (fun n => JsonSyntax.character ^ n) * {['"']} := by
    rw [mul_anyOf, anyOf_mul]
    rfl
  rw [within]
  unfold Conversion.stringText
  split
  next least unbounded =>
    rw [Fragment.denotesSequence_singleton, Fragment.denotes_rule, solved.string, least, unbounded, JsonSyntax.string,
      Language.kstar_eq_iSup_pow]
    congr 2
    ext text
    simp [mem_anyOf, Language.mem_iSup]
  next =>
    rw [Fragment.denotesSequence_cons, Fragment.denotesSequence_cons, Fragment.denotesSequence_singleton,
      denotes_bounded bounds, Fragment.denotes_rule, solved.character, ← mul_assoc]
    simp [CommonRules.quotationMark]

end Schema

namespace Conversion

variable {settings : SchemaSettings} {s : State} {rules : String → Language Char}

theorem State.Names.texts_eq (solved : s.SolvedBy rules) {body : Sequence} {name : String} (stands : s.Names body name) :
    rules name = denotesSequence rules body := by
  rcases stands with rfl | rule
  · rw [Fragment.denotesSequence_singleton, Fragment.denotes_rule]
  · rw [solved _ rule, Fragment.denotesAlternatives_singleton]

theorem Inner.denotes_piece (solved : s.SolvedBy rules) {inner : Inner} (stands : s.Names inner.body inner.name) :
    denotes rules inner.piece = denotesSequence rules inner.body := by
  rw [Inner.piece, Fragment.denotes_rule, stands.texts_eq solved]

theorem map_memberTexts {layout : Layout} {properties : List (String × Bool × Inner)} {texts : Schema → Language Char}
    (each : ∀ p ∈ properties, denotes rules p.2.2.piece = texts p.2.2.schema) :
    (properties.map (memberOf layout)).map (Schema.memberTexts rules) =
      (properties.map fun p => (p.1, p.2.1, p.2.2.schema)).map fun p =>
        (p.2.1, layout.pairs rules {Json.quote p.1} (texts p.2.2)) := by
  rw [List.map_map, List.map_map]
  refine List.map_congr_left fun p member => ?_
  have value := each p member
  simp only [Function.comp_apply, Schema.memberTexts, memberOf, Layout.denotes_pair, Fragment.denotes_ofText, value]

theorem texts_extraPiece {known : String → Option String} {depth : Nat} {extra : Extra Inner}
    (each : ∀ i ∈ extra.toList, denotes rules i.piece = Schema.valueTexts settings known rules depth i.schema) :
    (extraPiece settings extra).map (denotes rules) =
      Schema.textsOfExtra settings known rules depth (extra.map Inner.schema) := by
  cases extra with
  | forbidden => rw [Extra.map, Schema.textsOfExtra]; rfl
  | unspecified =>
    rw [Extra.map, Schema.textsOfExtra, extraPiece]
    split_ifs
    · rfl
    · rw [Option.map_some, Fragment.denotes_rule]
  | schema inner =>
    rw [Extra.map, Schema.textsOfExtra, extraPiece, Option.map_some, each inner (List.mem_singleton_self inner)]

theorem Renders.texts_eq (resolve : List Char → Option Schema) (common : CommonRules.SolvedBy rules) (solved : s.SolvedBy rules)
    {depth : Nat} {schema : Schema} {body : Sequence} (renders : Renders settings s depth schema body)
    (fits : ∀ part, schema.Uses resolve part → part.Fits) :
    denotesSequence rules body = Schema.valueTexts settings s.reference? rules depth schema := by
  induction renders with
  | anything =>
    rw [Fragment.denotesSequence_singleton, Schema.valueTexts]
    exact Fragment.denotes_rule rules _
  | annotated _ ih =>
    rw [Schema.valueTexts]
    exact ih fun part uses => fits part (.head .annotated uses)
  | reference known =>
    rw [Fragment.denotesSequence_singleton, Schema.valueTexts, known]
    exact Fragment.denotes_rule rules _
  | constant =>
    rw [Fragment.denotesSequence_singleton, Schema.valueTexts]
    exact Fragment.denotes_ofText rules _
  | @enumeration depth values =>
    ext text
    rw [Fragment.mem_denotesSequence_group, Schema.valueTexts]
    refine exists_congr fun value => and_congr_right fun _ => ?_
    rw [Fragment.denotesSequence_singleton, valueText, Fragment.denotes_ofText]
    exact eq_comm
  | @union depth members _ stands ih =>
    ext text
    rw [Fragment.mem_denotesSequence_group, Schema.valueTexts, Schema.mem_textsOfAny]
    refine exists_congr fun m => and_congr_right fun member => ?_
    have part : Schema.Part resolve (.union (members.map Inner.schema)) m.schema := .union (List.mem_map_of_mem member)
    rw [Fragment.denotesSequence_singleton, Inner.denotes_piece solved (stands m member),
      ih m member fun _ uses => fits _ (.head part uses)]
  | @types depth alternatives _ ih =>
    ext text
    rw [Fragment.mem_denotesSequence_group, Schema.valueTexts, Schema.mem_textsOfAny]
    refine exists_congr fun a => and_congr_right fun member => ?_
    have part : Schema.Part resolve (.types (alternatives.map Prod.fst)) a.1 := .types (List.mem_map_of_mem member)
    rw [ih a member fun _ uses => fits _ (.head part uses)]
  | basic =>
    rw [Fragment.denotesSequence_singleton, Schema.valueTexts, Fragment.denotes_rule, common.basic]
  | text =>
    rw [Schema.valueTexts]
    exact Schema.denotes_stringText common (fits _ .refl)
  | @array depth leading extra count body _ stands written ih =>
    obtain ⟨_, room, form⟩ := Schema.arrayForm_of_arrayText written
    have each (i : Inner) (member : i ∈ leading ++ extra.toList) :
        denotes rules i.piece = Schema.valueTexts settings s.reference? rules (depth + 1) i.schema := by
      rw [Inner.denotes_piece solved (stands i member),
        ih i member fun _ uses => fits _ (.head (part_array_iff.mpr ⟨i, member, rfl⟩) uses)]
    have leads : (leading.map Inner.piece).map (denotes rules) =
        (leading.map Inner.schema).map (Schema.valueTexts settings s.reference? rules (depth + 1)) := by
      rw [List.map_map, List.map_map]
      exact List.map_congr_left fun i member => each i (List.mem_append_left _ member)
    rw [form.texts_eq (fits _ .refl) room, Schema.valueTexts, Schema.textsOfEach_eq_map, leads,
      texts_extraPiece fun i member => each i (List.mem_append_right _ member)]
  | @object depth properties extra body _ stands written ih =>
    have each (i : Inner) (member : i ∈ properties.map (·.2.2) ++ extra.toList) :
        denotes rules i.piece = Schema.valueTexts settings s.reference? rules (depth + 1) i.schema := by
      rw [Inner.denotes_piece solved (stands i member),
        ih i member fun _ uses => fits _ (.head (part_object_iff.mpr ⟨i, member, rfl⟩) uses)]
    have listed (p : String × Bool × Inner) (member : p ∈ properties) :=
      each p.2.2 (List.mem_append_left _ (List.mem_map_of_mem member))
    rw [written.texts_eq solved common.string, Schema.valueTexts, Schema.textsOfMembers_eq_map, map_memberTexts listed,
      texts_extraPiece fun i member => each i (List.mem_append_right _ member)]

end Conversion

end GuidedDecoding
