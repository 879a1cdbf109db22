import Mathlib
import GuidedDecoding.Proofs.Schema.Building
import GuidedDecoding.Proofs.Schema.Keywords

namespace GuidedDecoding

open Fragment (Sequence)

namespace Schema

def resolver (json : Json) (pointer : List Char) : Option Schema := (json.pointer? pointer).map ofJson

theorem Part.inside_or_resolved {resolve : List Char → Option Schema} {schema part : Schema}
    (among : Part resolve schema part) :
    Part (fun _ => none) schema part ∨ ∃ pointer, resolve pointer = some part := by
  cases among with
  | annotated => exact .inl .annotated
  | reference _ found => exact .inr ⟨_, found⟩
  | union member => exact .inl (.union member)
  | types member => exact .inl (.types member)
  | leading member => exact .inl (.leading member)
  | item => exact .inl .item
  | property member => exact .inl (.property member)
  | member => exact .inl .member

section

variable {json : Json} {part : Schema} (uses : (ofJson json).Uses (resolver json) part)
include uses

theorem fitting_of_uses : part.Fitting json.Distinct json.references := by
  induction uses with
  | refl => exact (Reading.fitting_ofJson json id (List.Subset.refl _)).schema
  | tail _ part ih =>
    rcases part.inside_or_resolved with inside | ⟨pointer, found⟩
    · exact fun inner uses => ih inner (.head inside uses)
    · obtain ⟨value, stands, rfl⟩ := Option.map_eq_some_iff.mp found
      exact (Reading.fitting_ofJson value (fun distinct => distinct.pointer stands) (Json.references_pointer stands)).schema

theorem fits_of_uses : part.Fits := (fitting_of_uses uses part .refl).fits

theorem distinct_of_uses (distinct : json.Distinct) : part.Distinct := (fitting_of_uses uses part .refl).distinct distinct

theorem mem_references_of_uses {target : String} (same : part = .reference target) : target ∈ json.references :=
  (fitting_of_uses uses part .refl).named target same

end

end Schema

namespace CommonRules

theorem map_name_all (settings : SchemaSettings) : (all settings).map FragmentRule.name ++ ["root"] = names := rfl

theorem nodup_names : names.Nodup := by decide

end CommonRules

namespace Conversion

/-- Nothing is left to be converted. -/
structure Course.Complete (course : Course) (schema : Schema) (final : State) : Prop where
  named : final.Named
  distinct : ((CommonRules.all course.settings ++ final.rules.toList).map FragmentRule.name).Nodup
  accounts : ∀ rule ∈ final.rules.toList, course.Accounts final rule
  completes : ∀ target name, final.references.lookup target = some name → course.Completes final target name
  root : ∃ body, Renders course.settings final 0 schema body ∧ ⟨"root", [body]⟩ ∈ final.rules.toList

theorem Course.complete (course : Course) {nesting : Nat} {schema : Schema} (met : course.met 0 schema) {final : State}
    (run : (expanded course.settings course.resolve nesting "root" 0 schema >>= fun root => addRule "root" [root]).run.run {} =
      (.ok (), final)) : course.Complete schema final := by
  obtain ⟨root, last, ran, added⟩ := run_bind run
  cases added
  have isName : Token.IsName "root" := by decide
  obtain ⟨grows, holds⟩ := Course.builds_expanded _ isName met _ root last ran
  obtain ⟨rules, all, distinct, names⟩ := grows.rules
  have apart (rule : FragmentRule) (member : rule ∈ rules) : rule.name ∉ CommonRules.names := fun common =>
    (names rule member).2.1 (Std.TreeSet.mem_ofList.mpr (by simpa using common))
  have same : last.rules.toList ++ [⟨"root", [root]⟩] = rules ++ [⟨"root", [root]⟩] := by rw [all]; rfl
  have named : State.Named { last with rules := last.rules.push ⟨"root", [root]⟩ } := by
    refine ⟨?_, fun target name known => ?_⟩
    · rw [Array.toList_push, same]
      exact List.forall_mem_append.mpr ⟨fun rule member => (names rule member).1, List.forall_mem_singleton.mpr isName⟩
    · exact (grows.references target name known).resolve_left (by simp)
  have within : last.Within { last with rules := last.rules.push ⟨"root", [root]⟩ } :=
    ⟨fun rule member => by simp [member], fun _ _ => id⟩
  obtain ⟨adds, renders⟩ := holds _ within named trivial
  have accounts : course.Accounts _ ⟨"root", [root]⟩ := .inr ⟨0, _, root, met, renders, rfl⟩
  have adds := adds.push accounts
  refine ⟨named, ?_, fun rule member => (adds.rules rule member).resolve_left (by simp), fun target name known => ?_, root,
    renders, by simp⟩
  · have all : (CommonRules.names ++ rules.map FragmentRule.name).Nodup := by
      refine List.nodup_append.mpr ⟨CommonRules.nodup_names, distinct, fun name common other member same => ?_⟩
      obtain ⟨rule, listed, rfl⟩ := List.mem_map.mp member
      exact apart rule listed (same ▸ common)
    rw [Array.toList_push, same, List.map_append, List.map_append, List.map_singleton]
    rw [← CommonRules.map_name_all course.settings, List.append_assoc] at all
    exact (List.perm_append_comm.append_left _).nodup_iff.mp all
  · exact (adds.references target name known).resolve_left (by simp)

variable {settings : SchemaSettings} {json : Json} {final : State}

variable (settings json) in
def documentCourse : Course where
  settings := settings
  resolve := Schema.resolver json
  met _ := (Schema.ofJson json).Uses (Schema.resolver json)
  inherited met part := met.tail part
  fits := Schema.fits_of_uses

variable (settings json final) in
abbrev Complete : Prop := (documentCourse settings json).Complete (Schema.ofJson json) final

theorem complete (run : (Conversion.ofJson settings json).run.run {} = (.ok (), final)) :
    Complete settings json final :=
  (documentCourse settings json).complete .refl run

theorem of_grammarText_eq_ok {text : String} {ebnf : List Char}
    (converted : (Schema.grammarText settings text).1 = .ok ebnf) :
    ∃ json final, Json.read? text = some json ∧ (Conversion.ofJson settings json).run.run {} = (.ok (), final) ∧
      (CommonRules.all settings ++ final.rules.toList).flatMap FragmentRule.text = ebnf := by
  unfold Schema.grammarText at converted
  split at converted
  next => cases converted
  next json read =>
    rcases ran : (Conversion.ofJson settings json).run.run {} with ⟨fault | ⟨⟩, final⟩
    · simp only [Schema.ownRules, ran] at converted
      cases converted
    · simp only [Schema.ownRules, ran] at converted
      exact ⟨json, final, read, ran, Except.ok.inj converted⟩

theorem Course.Complete.reference_cases {course : Course} {schema : Schema} (complete : course.Complete schema final)
    {target name : String} (known : final.reference? target = some name) :
    (target = "#" ∧ ∃ body, Renders course.settings final 0 schema body ∧ ⟨name, [body]⟩ ∈ final.rules.toList) ∨
      course.Completes final target name := by
  rw [State.reference?] at known
  split_ifs at known with self
  · cases known
    exact .inl ⟨beq_iff_eq.mp self, complete.root⟩
  · exact .inr (complete.completes target name known)

theorem Course.Complete.mem_names {course : Course} {schema : Schema} (complete : course.Complete schema final) {name : String}
    (knows : final.Knows name) : name ∈ (CommonRules.all course.settings ++ final.rules.toList).map FragmentRule.name := by
  rw [List.map_append, List.mem_append]
  rcases knows with common | ⟨rule, member, rfl⟩ | ⟨target, known⟩
  · rw [← CommonRules.map_name_all course.settings] at common
    refine (List.mem_append.mp common).imp_right fun main => ?_
    obtain rfl := List.mem_singleton.mp main
    obtain ⟨root, _, rule⟩ := complete.root
    exact List.mem_map_of_mem (f := FragmentRule.name) rule
  · exact .inr (List.mem_map_of_mem member)
  · obtain ⟨_, _, _, body, _, _, _, _, rule⟩ := complete.completes target name known
    exact .inr (List.mem_map_of_mem (f := FragmentRule.name) rule)

theorem Course.Complete.closed {course : Course} {schema : Schema} (complete : course.Complete schema final) :
    FragmentRule.Closed (CommonRules.all course.settings ++ final.rules.toList) where
  distinct := complete.distinct
  main := List.count_eq_one_of_mem complete.distinct (complete.mem_names (State.knows_common (by decide)))
  defined := by
    refine List.forall_mem_append.mpr ⟨fun rule common name occurs => ?_, fun rule own name occurs => complete.mem_names ?_⟩
    · exact complete.mem_names (State.knows_common (CommonRules.refers_all course.settings rule common name occurs))
    · rcases complete.accounts rule own with ⟨_, knows⟩ | ⟨_, _, body, _, renders, written⟩
      · exact knows name occurs
      · rw [FragmentRule.ruleNames, written] at occurs
        exact Fragment.forall_alternativeRuleNames.mpr (List.forall_mem_singleton.mpr renders.refers) name occurs

end Conversion

namespace Schema

/-- The rules of a schema that is converted have different names, `root` is one of them, and no rule name occurs in a
body without its rule, however references are nested and whatever they are called. -/
theorem closed_of_grammarText {settings : SchemaSettings} {text : String} {ebnf : List Char}
    (converted : (grammarText settings text).1 = .ok ebnf) :
    ∃ json rules, Json.read? text = some json ∧ (ownRules settings json).1 = .ok rules ∧
      (CommonRules.all settings ++ rules).flatMap FragmentRule.text = ebnf ∧
      FragmentRule.Closed (CommonRules.all settings ++ rules) := by
  obtain ⟨json, final, read, run, written⟩ := Conversion.of_grammarText_eq_ok converted
  have own : (ownRules settings json).1 = .ok final.rules.toList := by
    rw [ownRules, run]
    rfl
  exact ⟨json, _, read, own, written, (Conversion.complete run).closed⟩

def circle : String :=
  "\x7b\"items\":\x7b\"$ref\":\"#/a.b\"\x7d,\"a.b\":\x7b\"anyOf\":[\x7b\"$ref\":\"#/a_b\"\x7d,\x7b\"type\":\"null\"\x7d]\x7d," ++
    "\"a_b\":\x7b\"items\":\x7b\"$ref\":\"#/a.b\"\x7d\x7d\x7d"

theorem closed_of_grammarText_circle : ∃ ebnf, (grammarText {} circle).1 = .ok ebnf ∧
    ∃ json rules, Json.read? circle = some json ∧ (ownRules {} json).1 = .ok rules ∧
      (CommonRules.all {} ++ rules).flatMap FragmentRule.text = ebnf ∧
      FragmentRule.Closed (CommonRules.all {} ++ rules) := by
  have converts : (grammarText {} circle).1.isOk = true := by decide +kernel
  cases converted : (grammarText {} circle).1 with
  | error fault =>
    rw [converted] at converts
    cases converts
  | ok ebnf => exact ⟨ebnf, rfl, closed_of_grammarText converted⟩

end Schema

end GuidedDecoding
