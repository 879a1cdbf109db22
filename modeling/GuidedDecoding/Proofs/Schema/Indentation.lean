import Mathlib
import GuidedDecoding.Proofs.Json.Indentation
import GuidedDecoding.Proofs.Schema.Wording

open scoped Computability

namespace GuidedDecoding

open Fragment (Sequence denotesSequence)

namespace Indentation

variable {indent depth : Nat}

def wording (indent depth : Nat) (comma : Language Char) : Wording where
  value := values indent (depth + 1)
  member := values indent (depth + 1)
  comma := comma
  items := values indent (depth + 1)
  members := values indent (depth + 1)
  whole := values indent depth

theorem lists {comma : Language Char} (apart : comma * values indent depth ≤ balanced indent depth) :
    Lists (values indent depth) comma (values indent depth) where
  single := le_rfl
  cons := values_mul_le apart
  more := values_mul_le (kstar_le_runs apart)

section

variable {promises : Promises} {left right : Char} (start : left = '[' ∨ left = '\x7b') (stop : right = ']' ∨ right = '\x7d')

theorem writes_enclosed {opening closing : List Char}
    (enclosed : {[left]} * {opening} * values indent (depth + 1) * {closing} * {[right]} ≤ values indent depth) {inside : Sequence}
    (list : promises.Writes inside (values indent (depth + 1))) :
    promises.Writes ([.ofText [left]] ++ .ofText opening :: inside ++ [.ofText closing, .ofText [right]]) (values indent depth) := by
  have front := (Promises.writes_exactly [left]).append ((Promises.writes_exactly opening).cons list)
  have back := (Promises.writes_exactly closing).cons (Promises.writes_exactly [right] : promises.Writes _ _)
  refine (front.append back).le ?_
  simpa only [mul_assoc] using enclosed

include start stop in
theorem writes_bare (promises : Promises) :
    promises.Writes [.ofText [left], .empty, .ofText [right]] (values indent depth) := by
  have nothing : promises.Writes [.empty] (balanced indent (depth + 1)) := Promises.writes_ofText (one_le_runs rfl)
  have all := ((Promises.writes_exactly [left]).append nothing).append (Promises.writes_exactly [right])
  exact all.le (bracketed_le_values start stop le_rfl)

end

theorem words_ofText {opening comma keyValue closing : List Char}
    (apart : {comma} * values indent (depth + 1) ≤ balanced indent (depth + 1)) (gap : keyValue ∈ balanced indent (depth + 1))
    (enclosed : ∀ {left right : Char}, left = '[' ∨ left = '\x7b' → right = ']' ∨ right = '\x7d' →
      {[left]} * {opening} * values indent (depth + 1) * {closing} * {[right]} ≤ values indent depth) :
    (Layout.mk (.ofText opening) [.ofText comma] [.ofText keyValue] (.ofText closing) .empty).Words
      (wording indent depth {comma}) where
  items := lists apart
  members := lists apart
  between _ := Promises.writes_exactly comma
  pair named valued := by
    have string : JsonSyntax.string ≤ values indent (depth + 1) := string_le_values
    have pair := ((named.le string).append (Promises.writes_ofText gap)).append valued
    exact pair.le ((mul_le_mul_left (values_mul_le le_rfl) _).trans (values_mul_le values_le_balanced))
  arrayOf list := writes_enclosed (enclosed (.inl rfl) (.inl rfl)) list
  emptyArray promises := writes_bare (.inl rfl) (.inl rfl) promises
  objectOf list := writes_enclosed (enclosed (.inr rfl) (.inr rfl)) list
  emptyObject promises := writes_bare (.inr rfl) (.inr rfl) promises

theorem words_lines : (Layout.lines [','] [':', ' '] indent depth).Words (wording indent depth {[','] ++ line indent (depth + 1)}) := by
  have colon : [':', ' '] ∈ balanced indent (depth + 1) := mem_balanced (by simp [isPlain])
  have comma : ({[',']} : Language Char) ≤ balanced indent (depth + 1) :=
    Set.singleton_subset_iff.mpr (mem_balanced (by simp [isPlain]))
  refine words_ofText ?_ colon fun start stop => lines_le_values start stop le_rfl
  rintro _ ⟨_, rfl, text, value, rfl⟩
  have next : [','] ++ (line indent (depth + 1) ++ text) ∈ balanced indent (depth + 1) :=
    mul_le_runs comma line_mul_values_le (Language.append_mem_mul rfl (Language.append_mem_mul rfl value))
  exact next

theorem words_oneLine : (Layout.oneLine [',', ' '] [':', ' ']).Words (wording indent depth {[',', ' ']}) := by
  have colon : [':', ' '] ∈ balanced indent (depth + 1) := mem_balanced (by simp [isPlain])
  have comma : ({[',', ' ']} : Language Char) ≤ balanced indent (depth + 1) :=
    Set.singleton_subset_iff.mpr (mem_balanced (by simp [isPlain]))
  change (Layout.mk (.ofText []) [.ofText [',', ' ']] [.ofText [':', ' ']] (.ofText []) .empty).Words _
  refine words_ofText (mul_le_runs comma values_le_balanced) colon fun start stop => ?_
  have nothing : ({[]} : Language Char) = 1 := rfl
  rw [nothing, mul_one, mul_one]
  exact bracketed_le_values start stop values_le_balanced

end Indentation

/-- Items and members stand on lines of their own, and nothing but this is said of separators and blanks. -/
structure SchemaSettings.Indents (settings : SchemaSettings) (indent : Nat) : Prop where
  exact : settings.anyWhitespace = false
  separators : settings.separators = none
  indent : settings.indent = some indent

namespace SchemaSettings.Indents

variable {settings : SchemaSettings} {indent : Nat} (indents : settings.Indents indent)
include indents

theorem layout_eq (depth : Nat) : settings.layout depth = .lines [','] [':', ' '] indent depth := by
  simp [layout, separatorTexts, indents.exact, indents.separators, indents.indent]

theorem inlineLayout_eq : settings.inlineLayout = .oneLine [',', ' '] [':', ' '] := by
  simp [inlineLayout, separatorTexts, indents.exact, indents.separators]

theorem words : settings.Words fun depth =>
    Indentation.wording indent depth {[','] ++ Indentation.line indent (depth + 1)} where
  layout depth := by
    rw [indents.layout_eq]
    exact Indentation.words_lines
  deeper _ := rfl
  common := {
    scalar := by
      rintro _ ⟨_, rfl⟩
      exact add_le (add_le (add_le Indentation.string_le_values Indentation.number_le_values) Indentation.boolean_le_values)
        Indentation.null_le_values
    nested := by
      rintro _ ⟨depth, rfl⟩
      rw [indents.inlineLayout_eq]
      exact ⟨_, Indentation.words_oneLine, rfl, depth + 1, rfl⟩ }
  text depth value := Indentation.inline_le_values (value.derives_text (· = ' '))

end SchemaSettings.Indents

namespace Schema

/-- A schema is met inside so many arrays and objects of another one, references followed. -/
inductive UsesAt (resolve : List Char → Option Schema) (schema : Schema) : Nat → Schema → Prop where
  | self : UsesAt resolve schema 0 schema
  | part {depth : Nat} {whole part : Schema} (uses : UsesAt resolve schema depth whole) (among : Part resolve whole part) :
    UsesAt resolve schema (depth + whole.levels) part

theorem UsesAt.uses {resolve : List Char → Option Schema} {schema part : Schema} {depth : Nat}
    (met : UsesAt resolve schema depth part) : schema.Uses resolve part := by
  induction met with
  | self => exact .refl
  | part _ among ih => exact ih.tail among

def Flat (resolve : List Char → Option Schema) (schema : Schema) : Prop := ∀ part, schema.Uses resolve part → part.levels = 0

def MeetsAt (json : Json) (depth : Nat) (target : String) : Prop :=
  UsesAt (resolver json) (ofJson json) depth (.reference target) ∨ target = "#" ∧ depth = 0

/-- Each reference is met inside of equally many arrays and objects everywhere, unless it leads to none. -/
def Steady (json : Json) : Prop :=
  ∀ target, (∀ one other, MeetsAt json one target → MeetsAt json other target → one = other) ∨
    Flat (resolver json) (.reference target)

end Schema

namespace Conversion

variable {settings : SchemaSettings} {json : Json} {s final : State} {indent : Nat}

/-- What is written for a schema depends on its depth only through the layouts of arrays and objects. -/
theorem Renders.change_depth {resolve : List Char → Option Schema} {depth : Nat} {schema : Schema} {body : Sequence}
    (renders : Renders settings s depth schema body) {other : Nat}
    (alike : (∀ one other, settings.layout one = settings.layout other) ∨ schema.Flat resolve) :
    Renders settings s other schema body := by
  have inner {schema part : Schema} (among : schema.Part resolve part)
      (alike : (∀ one other, settings.layout one = settings.layout other) ∨ schema.Flat resolve) :
      (∀ one other, settings.layout one = settings.layout other) ∨ part.Flat resolve :=
    alike.imp_right fun flat _ uses => flat _ (.head among uses)
  induction renders generalizing other with
  | anything => exact .anything
  | annotated _ ih => exact .annotated (ih (inner .annotated alike))
  | reference known => exact .reference known
  | constant => exact .constant
  | enumeration => exact .enumeration
  | union _ stands ih =>
    exact .union (fun m member => ih m member (inner (.union (List.mem_map_of_mem member)) alike)) stands
  | types _ ih => exact .types fun a member => ih a member (inner (.types (List.mem_map_of_mem member)) alike)
  | basic => exact .basic
  | text => exact .text
  | @array depth _ _ _ _ _ stands written ih =>
    rcases alike with same | flat
    · rw [same depth other] at written
      exact .array (fun i member => ih i member (.inl same)) stands written
    · exact absurd (flat _ .refl) Nat.one_ne_zero
  | @object depth _ _ _ _ stands written ih =>
    rcases alike with same | flat
    · rw [same depth other] at written
      exact .object (fun i member => ih i member (.inl same)) stands written
    · exact absurd (flat _ .refl) Nat.one_ne_zero

variable (settings json) in
def depthCourse : Course where
  settings := settings
  resolve := Schema.resolver json
  met := (Schema.ofJson json).UsesAt (Schema.resolver json)
  inherited := .part
  fits met := Schema.fits_of_uses met.uses

theorem exists_rule_of_reference (complete : (depthCourse settings json).Complete (Schema.ofJson json) final)
    {target name : String} (known : final.reference? target = some name) :
    ∃ depth schema body, Schema.MeetsAt json depth target ∧
      Schema.Part (Schema.resolver json) (.reference target) schema ∧
      Renders settings final depth schema body ∧ ⟨name, [body]⟩ ∈ final.rules.toList := by
  rcases complete.reference_cases known with
    ⟨rfl, body, renders, rule⟩ | ⟨pointer, schema, depth, body, inside, found, met, renders, rule⟩
  · have inside : "#".toList = ['#'] := rfl
    exact ⟨0, _, body, .inr ⟨rfl, rfl⟩, .reference inside rfl, renders, rule⟩
  · exact ⟨depth, schema, body, .inl met, .reference inside found, renders, rule⟩

theorem placed_of_steady (indents : settings.Indents indent) (steady : indent = 0 ∨ Schema.Steady json)
    (complete : (depthCourse settings json).Complete (Schema.ofJson json) final) :
    final.Placed settings ((Schema.ofJson json).UsesAt (Schema.resolver json))
      (fun depth => Indentation.wording indent depth {[','] ++ Indentation.line indent (depth + 1)})
      (Schema.resolver json) where
  words := indents.words
  named := complete.named
  inherited := .part
  referred {depth target name} met known := by
    obtain ⟨other, schema, body, meets, among, renders, rule⟩ := exists_rule_of_reference complete known
    have here : Renders settings final depth schema body := by
      rcases steady with rfl | steady
      · have same (one other : Nat) : settings.layout one = settings.layout other := by
          simp [indents.layout_eq, Layout.lines]
        exact renders.change_depth (.inl same : _ ∨ schema.Flat (Schema.resolver json))
      · rcases steady target with same | flat
        · rwa [same depth other (.inl met) meets]
        · exact renders.change_depth (.inr fun part uses => flat part (.head among uses))
    exact ⟨depth, rfl, schema, body, .part met among, here, rule⟩

end Conversion

namespace Schema

/-- If the settings ask for lines that are indented, all lines of what is accepted are, as long as each reference is met
at one depth. -/
theorem indented_of_accepting {settings : SchemaSettings} {indent : Nat} (indents : settings.Indents indent) {text : String}
    {json : Json} (read : Json.read? text = some json) (steady : indent = 0 ∨ Steady json) {grammar : Grammar}
    (converted : (Schema.grammar settings text).1 = .ok grammar) {w : List UInt8}
    (accepting : (w.foldl grammar.automaton.step grammar.automaton.initial).accepting = true) :
    ∃ content, Indentation.Indented indent content ∧ Utf8.encode content = w := by
  obtain ⟨other, final, same, run, compiled⟩ := exists_compiled converted
  obtain rfl : json = other := Option.some.inj (read.symm.trans same)
  have complete := Conversion.complete run
  obtain ⟨root, renders, rule⟩ := complete.root
  have placed := Conversion.placed_of_steady indents steady ((Conversion.depthCourse settings json).complete .self run)
  obtain ⟨content, member, encoded⟩ := (complete.accepting_iff ⟨{}, rule, compiled⟩ w).mp accepting
  have value := placed.body_le complete.distinct renders .self member
  exact ⟨content, Indentation.indented_of_mem_values value, encoded⟩

def onLines : SchemaSettings := { anyWhitespace := false, indent := some 2 }

theorem indents_onLines : onLines.Indents 2 := ⟨rfl, rfl, rfl⟩

def branches (leaf : String) : String :=
  "\x7b\"prefixItems\":[\x7b\"$ref\":\"#/$defs/leaf\"\x7d,\x7b\"prefixItems\":[\x7b\"$ref\":\"#/$defs/leaf\"\x7d]\x7d]," ++
    "\"$defs\":\x7b\"leaf\":" ++ leaf ++ "\x7d\x7d"

def nullBranches : Json :=
  let leaf := .object [("$ref", .string "#/$defs/leaf")]
  .object [("prefixItems", .array [leaf, .object [("prefixItems", .array [leaf])]]),
    ("$defs", .object [("leaf", .object [("type", .string "null")])])]

theorem flat_nullBranches : Flat (resolver nullBranches) (.reference "#/$defs/leaf") := by
  have leads : resolver nullBranches "/$defs/leaf".toList = some (.annotated [] (.basic .null)) := rfl
  intro part uses
  have among : part ∈ [.reference "#/$defs/leaf", .annotated [] (.basic .null), .basic .null] := by
    induction uses with
    | refl => exact .head _
    | tail _ among ih =>
      simp only [List.mem_cons, List.not_mem_nil, or_false] at ih
      rcases ih with rfl | rfl | rfl
      · cases among with
        | reference inside found =>
          obtain rfl : "/$defs/leaf".toList = _ := by simpa using inside
          rw [leads] at found
          cases found
          exact .tail _ (.head _)
      · cases among
        exact .tail _ (.tail _ (.head _))
      · cases among
  simp only [List.mem_cons, List.not_mem_nil, or_false] at among
  rcases among with rfl | rfl | rfl <;> rfl

theorem steady_nullBranches : Steady nullBranches := by
  intro target
  by_cases leaf : target = "#/$defs/leaf"
  · subst leaf
    exact .inr flat_nullBranches
  · have outside {depth : Nat} (meets : MeetsAt nullBranches depth target) : depth = 0 := by
      rcases meets with met | ⟨_, whole⟩
      · have known : nullBranches.references = ["#/$defs/leaf", "#/$defs/leaf"] := rfl
        have listed := mem_references_of_uses met.uses rfl
        rw [known] at listed
        simp [leaf] at listed
      · exact whole
    exact .inl fun one other first second => (outside first).trans (outside second).symm

theorem indented_of_accepting_branches : onLines.Indents 2 ∧
    Json.read? (branches "\x7b\"type\":\"null\"\x7d") = some nullBranches ∧ Steady nullBranches ∧
    ∃ grammar : Grammar, (Schema.grammar onLines (branches "\x7b\"type\":\"null\"\x7d")).1 = .ok grammar ∧
      ((Utf8.encode "[\n  null,\n  [\n    null\n  ]\n]".toList).foldl grammar.automaton.step
        grammar.automaton.initial).accepting = true ∧
      ∃ content, Indentation.Indented 2 content ∧
        Utf8.encode content = Utf8.encode "[\n  null,\n  [\n    null\n  ]\n]".toList := by
  have read : Json.read? (branches "\x7b\"type\":\"null\"\x7d") = some nullBranches := by decide +kernel
  have accepts : ((Schema.grammar onLines (branches "\x7b\"type\":\"null\"\x7d")).1.toOption.any fun grammar =>
      ((Utf8.encode "[\n  null,\n  [\n    null\n  ]\n]".toList).foldl grammar.automaton.step
        grammar.automaton.initial).accepting) = true := by decide +kernel
  cases converted : (Schema.grammar onLines (branches "\x7b\"type\":\"null\"\x7d")).1 with
  | error fault =>
    rw [converted] at accepts
    cases accepts
  | ok grammar =>
    rw [converted] at accepts
    exact ⟨indents_onLines, read, steady_nullBranches, grammar, rfl, accepts,
      indented_of_accepting indents_onLines read (.inr steady_nullBranches) converted accepts⟩

/-- Where a reference to an array is met again, its lines are still indented as where it was met first. -/
theorem unindented_accepted : onLines.Indents 2 ∧
    ((Schema.grammar onLines (branches "\x7b\"prefixItems\":[\x7b\"type\":\"null\"\x7d]\x7d")).1.toOption.any
      fun grammar => ((Utf8.encode "[\n  [\n    null\n  ],\n  [\n    [\n    null\n  ]\n  ]\n]".toList).foldl
        grammar.automaton.step grammar.automaton.initial).accepting) = true ∧
    ¬Indentation.Indented 2 "[\n  [\n    null\n  ],\n  [\n    [\n    null\n  ]\n  ]\n]".toList := by
  refine ⟨indents_onLines, ?_, ?_⟩ <;> decide +kernel

end Schema

end GuidedDecoding
