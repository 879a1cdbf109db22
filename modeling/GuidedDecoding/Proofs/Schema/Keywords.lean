import Mathlib
import GuidedDecoding.Proofs.Json.Distinct
import GuidedDecoding.Proofs.Schema.Rendering
import GuidedDecoding.Schema.GrammarText

namespace GuidedDecoding

namespace Json

variable {target : String}

theorem mem_referencesIn {items : List Json} :
    target ∈ referencesIn items ↔ ∃ item ∈ items, target ∈ item.references := by
  induction items with
  | nil => simp [referencesIn]
  | cons item rest ih => simp [referencesIn, ih]

theorem mem_memberReferences {members : List (String × Json)} : target ∈ memberReferences members ↔
    ∃ m ∈ members, m = ("$ref", .string target) ∨ target ∈ m.2.references := by
  induction members with
  | nil => simp [memberReferences]
  | cons m rest ih =>
    have first : target ∈ memberReferences (m :: rest) ↔
        (m = ("$ref", .string target) ∨ target ∈ m.2.references) ∨ target ∈ memberReferences rest := by
      obtain ⟨key, value⟩ := m
      cases value with
      | string text =>
        rw [memberReferences]
        by_cases named : key = "$ref"
        · simp [named, references, eq_comm]
        · simp [named, references]
      | _ => simp [memberReferences]
    rw [first, ih, List.exists_mem_cons_iff]

theorem references_item {items : List Json} {item : Json} (member : item ∈ items) :
    item.references ⊆ (Json.array items).references := by
  intro target found
  rw [references]
  exact mem_referencesIn.mpr ⟨item, member, found⟩

theorem references_member {members : List (String × Json)} {m : String × Json} (member : m ∈ members) :
    m.2.references ⊆ (Json.object members).references := by
  intro target found
  rw [references]
  exact mem_memberReferences.mpr ⟨m, member, .inr found⟩

theorem references_child {value child : Json} {key : List Char} (found : child? key value = some child) :
    child.references ⊆ value.references := by
  cases value with
  | array =>
    obtain ⟨index, _, found⟩ := Option.bind_eq_some_iff.mp found
    exact references_item (List.mem_of_getElem? found)
  | object =>
    obtain ⟨m, first, rfl⟩ := Option.map_eq_some_iff.mp found
    exact references_member (List.mem_of_find?_eq_some first)
  | _ => cases found

theorem references_pointer {value inner : Json} {pointer : List Char} (found : value.pointer? pointer = some inner) :
    inner.references ⊆ value.references :=
  pointer?_induction (fun first known => List.Subset.trans (references_child first) known) found (List.Subset.refl _)

end Json

namespace Schema

def Distinct : Schema → Prop
  | .object properties _ => (properties.map Prod.fst).Nodup
  | _ => True

/-- One part fits, has no key twice if keys are `distinct`, and refers to nothing but `targets`. -/
structure Sound (distinct : Prop) (targets : List String) (part : Schema) : Prop where
  fits : part.Fits
  distinct : distinct → part.Distinct
  named : ∀ target, part = .reference target → target ∈ targets

def Fitting (distinct : Prop) (targets : List String) (schema : Schema) : Prop :=
  ∀ part, schema.Uses (fun _ => none) part → part.Sound distinct targets

variable {distinct : Prop} {targets : List String}

theorem fitting_of_parts {schema : Schema} (sound : schema.Sound distinct targets)
    (parts : ∀ part, Part (fun _ => none) schema part → part.Fitting distinct targets) : schema.Fitting distinct targets := by
  intro part uses
  rcases Relation.ReflTransGen.cases_head uses with rfl | ⟨inner, first, rest⟩
  · exact sound
  · exact parts inner first part rest

theorem fitting_anything : anything.Fitting distinct targets :=
  fitting_of_parts ⟨trivial, fun _ => trivial, by simp⟩ fun _ among => nomatch among

theorem fitting_unsupported (fault : SchemaFault) : (unsupported fault).Fitting distinct targets :=
  fitting_of_parts ⟨trivial, fun _ => trivial, by simp⟩ fun _ among => nomatch among

theorem fitting_basic (type : BasicType) : (basic type).Fitting distinct targets :=
  fitting_of_parts ⟨trivial, fun _ => trivial, by simp⟩ fun _ among => nomatch among

end Schema

structure Reading.Fitting (distinct : Prop) (targets : List String) (reading : Reading) : Prop where
  schema : reading.schema.Fitting distinct targets
  items : ∀ item ∈ reading.items, item.Fitting distinct targets
  members : ∀ m ∈ reading.members, m.2.Fitting distinct targets
  keys : distinct → (reading.members.map Prod.fst).Nodup

namespace Keywords

open Schema (fitting_of_parts fitting_anything fitting_unsupported fitting_basic)

section

variable {distinct : Prop} {targets : List String} {keywords : Keywords}

/-- A bound is what its keyword says, but upper bounds that no repetition can have are dropped. -/
theorem of_bounds_eq_ok {minName maxName : String} {count : CountBounds}
    (given : keywords.bounds minName maxName = .ok count) : ∃ least most, keywords.bound? minName = .ok least ∧
      keywords.bound? maxName = .ok most ∧ count.min = least.getD 0 ∧ count.max = most.filter (· ≤ maxRepetition) ∧
      Quantifiable count.min count.max := by
  simp only [bounds, bind, Except.bind] at given
  split at given
  next => cases given
  next least lower =>
    split_ifs at given with allowed
    · have allowed : least.getD 0 ≤ maxRepetition := by omega
      split at given
      next => cases given
      next most upper =>
        refine ⟨least, most, lower, upper, ?_⟩
        cases most with
        | none =>
          cases given
          exact ⟨rfl, rfl, allowed, by simp⟩
        | some most =>
          dsimp only at given
          split_ifs at given with high crossed
          · cases given
            exact ⟨rfl, by simp [Option.filter, high], allowed, by simp⟩
          · cases given
            exact ⟨rfl, by simp [Option.filter, Nat.le_of_not_lt high], allowed, by simp; omega⟩

theorem quantifiable_bounds {minName maxName : String} {count : CountBounds}
    (given : keywords.bounds minName maxName = .ok count) : Quantifiable count.min count.max := by
  obtain ⟨_, _, _, _, _, _, quantifiable⟩ := of_bounds_eq_ok given
  exact quantifiable

theorem fitting_reference?
    (known : ∀ keyword ∈ keywords, keyword.1 = "$ref" → ∀ target, keyword.2.value = .string target → target ∈ targets) :
    ∀ schema ∈ keywords.reference?, schema.Fitting distinct targets := by
  intro schema given
  obtain ⟨reading, present, chosen⟩ := Option.bind_eq_some_iff.mp given
  split at chosen <;> cases chosen
  next target written =>
    obtain ⟨keyword, found, rfl⟩ := Option.map_eq_some_iff.mp present
    have named := known keyword (List.mem_of_find?_eq_some found) (by simpa using List.find?_some found) target written
    refine fitting_of_parts ⟨trivial, fun _ => trivial, by simpa using named⟩ ?_
    intro _ among
    cases among with
    | reference _ leads => cases leads
  next => exact fitting_unsupported _

theorem fitting_constant? : ∀ schema ∈ keywords.constant?, schema.Fitting distinct targets := by
  intro schema given
  obtain ⟨reading, _, chosen⟩ := Option.bind_eq_some_iff.mp given
  cases chosen
  exact fitting_of_parts ⟨trivial, fun _ => trivial, by simp⟩ fun _ among => nomatch among

theorem fitting_enumeration? : ∀ schema ∈ keywords.enumeration?, schema.Fitting distinct targets := by
  intro schema given
  obtain ⟨reading, _, chosen⟩ := Option.bind_eq_some_iff.mp given
  split at chosen <;> cases chosen
  · exact fitting_of_parts ⟨List.cons_ne_nil _ _, fun _ => trivial, by simp⟩ fun _ among => nomatch among
  · exact fitting_unsupported _

theorem fitting_text : keywords.text.Fitting distinct targets := by
  unfold text
  refine fitting_of_parts ⟨?_, fun _ => trivial, by simp⟩ fun _ among => nomatch among
  cases given : keywords.bounds "minLength" "maxLength" with
  | error => trivial
  | ok count => exact quantifiable_bounds given

section

variable (fitting : ∀ keyword ∈ keywords, keyword.2.Fitting distinct targets)
include fitting

theorem fitting_get? {name : String} {reading : Reading} (given : keywords.get? name = some reading) :
    reading.Fitting distinct targets := by
  obtain ⟨keyword, found, rfl⟩ := Option.map_eq_some_iff.mp given
  exact fitting keyword (List.mem_of_find?_eq_some found)

theorem fitting_either {first second : String} {reading : Reading}
    (given : (keywords.get? first <|> keywords.get? second) = some reading) : reading.Fitting distinct targets := by
  rw [Option.orElse_eq_orElse, Option.orElse_eq_or] at given
  rcases Option.or_eq_some_iff.mp given with one | ⟨_, other⟩
  · exact fitting_get? fitting one
  · exact fitting_get? fitting other

theorem fitting_union? : ∀ schema ∈ keywords.union?, schema.Fitting distinct targets := by
  intro schema given
  obtain ⟨reading, present, chosen⟩ := Option.bind_eq_some_iff.mp given
  have each := (fitting_either fitting present).items
  split at chosen <;> cases chosen
  · exact fitting_unsupported _
  next some =>
    exact fitting_of_parts ⟨some, fun _ => trivial, by simp⟩ fun part among => by cases among with | union member => exact each part member

theorem fitting_conjunct? : ∀ schema ∈ keywords.conjunct?, schema.Fitting distinct targets := by
  intro schema given
  obtain ⟨reading, present, chosen⟩ := Option.bind_eq_some_iff.mp given
  have each := (fitting_get? fitting present).items
  split at chosen <;> cases chosen
  next one => exact each _ (by simp [one])
  next => exact fitting_unsupported _

theorem fitting_extra {first second : String} {schema : Schema} (given : keywords.extra first second = .schema schema) :
    schema.Fitting distinct targets := by
  unfold extra at given
  split at given
  next => cases given
  next => cases given
  next reading _ present =>
    cases given
    exact (fitting_either fitting present).schema

theorem fitting_array : keywords.array.Fitting distinct targets := by
  have rest {leading : List Schema} (each : ∀ item ∈ leading, item.Fitting distinct targets) :
      (Schema.array leading (keywords.extra "items" "unevaluatedItems") (keywords.bounds "minItems" "maxItems")).Fitting distinct targets := by
    refine fitting_of_parts ⟨?_, fun _ => trivial, by simp⟩ ?_
    · cases given : keywords.bounds "minItems" "maxItems" with
      | error => trivial
      | ok count => exact quantifiable_bounds given
    · generalize given : keywords.extra "items" "unevaluatedItems" = extra
      intro part among
      cases among with
      | leading member => exact each part member
      | item => exact fitting_extra fitting given
  unfold array
  split
  next => exact rest (List.forall_mem_nil _)
  next items _ present => exact rest (fitting_get? fitting present).items
  next => exact fitting_unsupported _

theorem fitting_object : keywords.object.Fitting distinct targets := by
  have rest {properties : List (String × Schema)} (each : ∀ p ∈ properties, p.2.Fitting distinct targets)
      (keys : distinct → (properties.map Prod.fst).Nodup) :
      (Schema.object (properties.map fun p => (p.1, keywords.required.contains p.1, p.2))
        (keywords.extra "additionalProperties" "unevaluatedProperties")).Fitting distinct targets := by
    refine fitting_of_parts ⟨trivial, fun given => ?_, by simp⟩ ?_
    · rw [Schema.Distinct, List.map_map]
      exact keys given
    generalize given : keywords.extra "additionalProperties" "unevaluatedProperties" = extra
    intro part among
    cases among with
    | property member =>
      obtain ⟨p, listed, same⟩ := List.mem_map.mp member
      cases same
      exact each p listed
    | member => exact fitting_extra fitting given
  unfold object
  dsimp only
  split
  next => exact rest (List.forall_mem_nil _) fun _ => List.nodup_nil
  next members present => exact rest (fitting_get? fitting present).members (fitting_get? fitting present).keys
  next => exact fitting_unsupported _

theorem fitting_ofType (name : String) : (keywords.ofType name).Fitting distinct targets := by
  unfold ofType
  split
  · exact fitting_text
  · exact fitting_basic _
  · exact fitting_basic _
  · exact fitting_basic _
  · exact fitting_basic _
  · exact fitting_array fitting
  · exact fitting_object fitting
  · exact fitting_unsupported _

theorem fitting_untyped : keywords.untyped.Fitting distinct targets := by
  unfold untyped
  dsimp only
  split_ifs
  · exact fitting_object fitting
  · exact fitting_array fitting
  · exact fitting_text
  · exact fitting_anything

theorem fitting_typed : keywords.typed.Fitting distinct targets := by
  unfold typed
  split
  next => exact fitting_untyped fitting
  next => exact fitting_ofType fitting _
  next names _ =>
    refine fitting_of_parts ⟨trivial, fun _ => trivial, by simp⟩ ?_
    intro part among
    cases among with
    | types member =>
      obtain ⟨name, _, rfl⟩ := List.mem_map.mp member
      split
      · exact fitting_ofType fitting _
      · exact fitting_unsupported _
  next => exact fitting_unsupported _

theorem fitting_schema
    (known : ∀ keyword ∈ keywords, keyword.1 = "$ref" → ∀ target, keyword.2.value = .string target → target ∈ targets) :
    keywords.schema.Fitting distinct targets := by
  have chosen : ((keywords.reference? <|> keywords.constant? <|> keywords.enumeration? <|> keywords.union? <|>
      keywords.conjunct?).getD keywords.typed).Fitting distinct targets := by
    cases given : (keywords.reference? <|> keywords.constant? <|> keywords.enumeration? <|> keywords.union? <|>
      keywords.conjunct?) with
    | none => exact fitting_typed fitting
    | some schema =>
      simp only [Option.orElse_eq_orElse, Option.orElse_eq_or, Option.or_eq_some_iff] at given
      rcases given with found | ⟨_, found | ⟨_, found | ⟨_, found | ⟨_, found⟩⟩⟩⟩
      · exact fitting_reference? known schema found
      · exact fitting_constant? schema found
      · exact fitting_enumeration? schema found
      · exact fitting_union? fitting schema found
      · exact fitting_conjunct? fitting schema found
  refine fitting_of_parts ⟨trivial, fun _ => trivial, fun _ same => nomatch same⟩ fun part among => ?_
  cases among with
  | annotated => exact chosen

end

end

end Keywords

open Schema (fitting_anything fitting_unsupported)

theorem map_fst_keywordsOf (members : List (String × Json)) : (keywordsOf members).map Prod.fst = members.map Prod.fst := by
  induction members with
  | nil => rw [keywordsOf, List.map_nil, List.map_nil]
  | cons m rest ih => rw [keywordsOf, List.map_cons, List.map_cons, ih]

theorem Reading.value_ofJson (value : Json) : (Reading.ofJson value).value = value := by
  unfold Reading.ofJson
  split <;> rfl

theorem exists_of_keywordsOf {members : List (String × Json)} {keyword : String × Reading}
    (listed : keyword ∈ keywordsOf members) : ∃ m ∈ members, keyword = (m.1, Reading.ofJson m.2) := by
  induction members with
  | nil =>
    rw [keywordsOf] at listed
    cases listed
  | cons m rest ih =>
    rw [keywordsOf] at listed
    rcases List.mem_cons.mp listed with rfl | later
    · exact ⟨m, List.mem_cons_self, rfl⟩
    · obtain ⟨other, member, same⟩ := ih later
      exact ⟨other, List.mem_cons_of_mem _ member, same⟩

variable {distinct : Prop} {targets : List String}

mutual

theorem Reading.fitting_ofJson : ∀ value : Json, (distinct → value.Distinct) → value.references ⊆ targets →
    (Reading.ofJson value).Fitting distinct targets
  | .bool true, _, _ => by
    rw [Reading.ofJson]
    exact ⟨fitting_anything, List.forall_mem_nil _, List.forall_mem_nil _, fun _ => List.nodup_nil⟩
  | .bool false, _, _ => by
    rw [Reading.ofJson]
    exact ⟨fitting_unsupported _, List.forall_mem_nil _, List.forall_mem_nil _, fun _ => List.nodup_nil⟩
  | .array items, apart, known => by
    have each : distinct → ∀ item ∈ items, item.Distinct := fun given => by
      cases apart given with
      | array each => exact each
    rw [Reading.ofJson]
    exact ⟨fitting_unsupported _, fitting_schemasOf items each fun item member => List.Subset.trans (Json.references_item member) known,
      List.forall_mem_nil _, fun _ => List.nodup_nil⟩
  | .object members, apart, known => by
    have parts : distinct → (members.map Prod.fst).Nodup ∧ ∀ m ∈ members, m.2.Distinct := fun given => by
      cases apart given with
      | object keys each => exact ⟨keys, each⟩
    have each := fitting_keywordsOf members (fun given => (parts given).2)
      fun m member => List.Subset.trans (Json.references_member member) known
    have named : ∀ keyword ∈ keywordsOf members, keyword.1 = "$ref" → ∀ target, keyword.2.value = .string target →
        target ∈ targets := by
      intro keyword listed isRef target written
      obtain ⟨m, member, rfl⟩ := exists_of_keywordsOf listed
      rw [Reading.value_ofJson] at written
      apply known
      rw [Json.references]
      exact Json.mem_memberReferences.mpr ⟨m, member, .inl (Prod.ext isRef written)⟩
    rw [Reading.ofJson]
    refine ⟨Keywords.fitting_schema each named, List.forall_mem_nil _,
      List.forall_mem_map.mpr fun keyword member => (each keyword member).schema, fun given => ?_⟩
    rw [List.map_map]
    exact (map_fst_keywordsOf members).symm ▸ (parts given).1
  | .null, _, _ => by
    rw [Reading.ofJson]
    · exact ⟨fitting_unsupported _, List.forall_mem_nil _, List.forall_mem_nil _, fun _ => List.nodup_nil⟩
    all_goals simp
  | .number _, _, _ => by
    rw [Reading.ofJson]
    · exact ⟨fitting_unsupported _, List.forall_mem_nil _, List.forall_mem_nil _, fun _ => List.nodup_nil⟩
    all_goals simp
  | .string _, _, _ => by
    rw [Reading.ofJson]
    · exact ⟨fitting_unsupported _, List.forall_mem_nil _, List.forall_mem_nil _, fun _ => List.nodup_nil⟩
    all_goals simp

theorem fitting_schemasOf : ∀ items : List Json, (distinct → ∀ item ∈ items, item.Distinct) →
    (∀ item ∈ items, item.references ⊆ targets) → ∀ schema ∈ schemasOf items, schema.Fitting distinct targets
  | [], _, _ => by simp [schemasOf]
  | item :: rest, apart, known => by
    rw [schemasOf]
    exact List.forall_mem_cons.mpr
      ⟨(Reading.fitting_ofJson item (fun given => apart given item (by simp)) (known item (by simp))).schema,
        fitting_schemasOf rest (fun given other member => apart given other (by simp [member]))
          fun other member => known other (by simp [member])⟩

theorem fitting_keywordsOf : ∀ members : List (String × Json), (distinct → ∀ m ∈ members, m.2.Distinct) →
    (∀ m ∈ members, m.2.references ⊆ targets) → ∀ keyword ∈ keywordsOf members, keyword.2.Fitting distinct targets
  | [], _, _ => by simp [keywordsOf]
  | (key, value) :: rest, apart, known => by
    rw [keywordsOf]
    exact List.forall_mem_cons.mpr
      ⟨Reading.fitting_ofJson value (fun given => apart given (key, value) (by simp)) (known (key, value) (by simp)),
        fitting_keywordsOf rest (fun given other member => apart given other (by simp [member]))
          fun other member => known other (by simp [member])⟩

end

end GuidedDecoding
