import Mathlib
import GuidedDecoding.Proofs.Schema.Rendering

namespace GuidedDecoding

open Fragment (Sequence)

namespace Fragment

mutual

def ruleNames : Fragment → List String
  | rule name => [name]
  | repeated body _ _ => body.ruleNames
  | group alternatives => alternativeRuleNames alternatives
  | _ => []

def sequenceRuleNames : List Fragment → List String
  | [] => []
  | piece :: rest => piece.ruleNames ++ sequenceRuleNames rest

def alternativeRuleNames : List (List Fragment) → List String
  | [] => []
  | pieces :: rest => sequenceRuleNames pieces ++ alternativeRuleNames rest

end

def Refers (known : String → Prop) (pieces : Sequence) : Prop := ∀ name ∈ sequenceRuleNames pieces, known name

section

variable {known : String → Prop} {f : Fragment} {pieces others : Sequence}

@[simp] theorem ruleNames_ofText (content : List Char) : (ofText content).ruleNames = [] := by rw [ofText, ruleNames] <;> simp

@[simp] theorem ruleNames_empty : empty.ruleNames = [] := by rw [empty, ruleNames] <;> simp

@[simp] theorem ruleNames_charClass (inside : String) : (charClass inside).ruleNames = [] := by rw [ruleNames] <;> simp

@[simp] theorem ruleNames_rule (name : String) : (rule name).ruleNames = [name] := by rw [ruleNames]

@[simp] theorem ruleNames_repeated (min : Nat) (max : Option Nat) : (repeated f min max).ruleNames = f.ruleNames := by
  rw [ruleNames]

@[simp] theorem ruleNames_optional : (optional f).ruleNames = f.ruleNames := ruleNames_repeated _ _

@[simp] theorem ruleNames_many : (many f).ruleNames = f.ruleNames := ruleNames_repeated _ _

theorem ruleNames_bounded (min : Nat) (max : Option Nat) : (bounded f min max).ruleNames ⊆ f.ruleNames := by
  unfold bounded
  split_ifs <;> simp

@[simp] theorem refers_nil : Refers known [] := by simp [Refers, sequenceRuleNames]

@[simp] theorem refers_cons : Refers known (f :: pieces) ↔ (∀ name ∈ f.ruleNames, known name) ∧ Refers known pieces := by
  simp [Refers, sequenceRuleNames, or_imp, forall_and]

@[simp] theorem refers_append : Refers known (pieces ++ others) ↔ Refers known pieces ∧ Refers known others := by
  induction pieces with
  | nil => simp
  | cons f pieces ih => simp [ih, and_assoc]

theorem refers_iff : Refers known pieces ↔ ∀ f ∈ pieces, ∀ name ∈ f.ruleNames, known name := by
  induction pieces with
  | nil => simp
  | cons f pieces ih => simp [ih]

@[simp] theorem forall_alternativeRuleNames {alternatives : List (List Fragment)} :
    (∀ name ∈ alternativeRuleNames alternatives, known name) ↔ ∀ pieces ∈ alternatives, Refers known pieces := by
  induction alternatives with
  | nil => simp [alternativeRuleNames]
  | cons pieces rest ih =>
    rw [List.forall_mem_cons, ← ih]
    simp [alternativeRuleNames, Refers, or_imp, forall_and]

@[simp] theorem forall_ruleNames_group {alternatives : List (List Fragment)} :
    (∀ name ∈ (group alternatives).ruleNames, known name) ↔ ∀ pieces ∈ alternatives, Refers known pieces := by
  rw [ruleNames, forall_alternativeRuleNames]

end

end Fragment

open Fragment (Refers)

def FragmentRule.ruleNames (rule : FragmentRule) : List String := Fragment.alternativeRuleNames rule.alternatives

/-- No two rules have the same name, one of them is the main rule, and every rule name in a body is that of a rule. -/
structure FragmentRule.Closed (rules : List FragmentRule) : Prop where
  distinct : (rules.map FragmentRule.name).Nodup
  main : (rules.map FragmentRule.name).count "root" = 1
  defined : ∀ rule ∈ rules, ∀ name ∈ rule.ruleNames, name ∈ rules.map FragmentRule.name

structure Layout.Nameless (layout : Layout) : Prop where
  opening : layout.opening.ruleNames = []
  between : ∀ known, Refers known layout.between
  keyValue : ∀ known, Refers known layout.keyValue
  closing : layout.closing.ruleNames = []
  inEmpty : layout.inEmpty.ruleNames = []

theorem Layout.nameless_spaced (between keyValue : List Char) : (spaced between keyValue).Nameless := by
  constructor <;> simp [spaced, blanks]

theorem Layout.nameless_oneLine (between keyValue : List Char) : (oneLine between keyValue).Nameless := by
  constructor <;> simp [oneLine]

theorem Layout.nameless_lines (between keyValue : List Char) (indent depth : Nat) :
    (lines between keyValue indent depth).Nameless := by
  constructor <;> simp [lines]

namespace SchemaSettings

variable (settings : SchemaSettings)

theorem nameless_layout (depth : Nat) : (settings.layout depth).Nameless := by
  unfold layout
  dsimp only
  split_ifs
  · exact Layout.nameless_spaced _ _
  · split
    · exact Layout.nameless_lines _ _ _ depth
    · exact Layout.nameless_oneLine _ _

theorem nameless_inlineLayout : settings.inlineLayout.Nameless := by
  unfold inlineLayout
  dsimp only
  split_ifs
  · exact Layout.nameless_spaced _ _
  · exact Layout.nameless_oneLine _ _

theorem refers_orEmpty {known : String → Prop} {nonEmpty empty : Sequence} (some : Refers known nonEmpty)
    (none : Refers known empty) : Refers known (settings.orEmpty nonEmpty empty) := by
  unfold orEmpty
  split_ifs
  · exact some
  · simp [some, none]

end SchemaSettings

section

variable {known : String → Prop} {layout : Layout} (nameless : layout.Nameless) {inside : Sequence}
include nameless

theorem Layout.refers_arrayOf (named : Refers known inside) : Refers known (layout.arrayOf inside) := by
  simp [arrayOf, nameless.opening, nameless.closing, named]

theorem Layout.refers_objectOf (named : Refers known inside) : Refers known (layout.objectOf inside) := by
  simp [objectOf, nameless.opening, nameless.closing, named]

theorem Layout.refers_emptyArray : Refers known layout.emptyArray := by simp [emptyArray, nameless.inEmpty]

theorem Layout.refers_emptyObject : Refers known layout.emptyObject := by simp [emptyObject, nameless.inEmpty]

theorem Layout.refers_another (named : Refers known inside) : ∀ name ∈ (layout.another inside).ruleNames, known name := by
  simp [another, nameless.between known, named]

theorem Layout.refers_pair {key value : Fragment} (keyed : ∀ name ∈ key.ruleNames, known name)
    (valued : ∀ name ∈ value.ruleNames, known name) : Refers known (layout.pair key value) := by
  simp only [pair, Fragment.refers_cons, Fragment.refers_append, Fragment.refers_nil, and_true]
  exact ⟨⟨keyed, nameless.keyValue known⟩, valued⟩

theorem Layout.refers_separated {items : List Fragment} (each : ∀ f ∈ items, ∀ name ∈ f.ruleNames, known name) :
    Refers known (layout.separated items) := by
  induction items with
  | nil => simp [separated]
  | cons item rest ih =>
    have one := each item (by simp)
    have others := ih fun f member => each f (by simp [member])
    cases rest with
    | nil => simpa [separated] using one
    | cons =>
      rw [separated]
      · simp only [List.cons_append, Fragment.refers_cons, Fragment.refers_append]
        exact ⟨one, nameless.between known, others⟩
      · simp

namespace Schema

theorem refers_moreItems {item : Fragment} (one : ∀ name ∈ item.ruleNames, known name) (count : CountBounds) (fixed : Nat) :
    ∀ name ∈ (moreItems layout item count fixed).ruleNames, known name := fun name member =>
  Layout.refers_another nameless (by simpa using one) name (Fragment.ruleNames_bounded _ _ member)

theorem ArrayForm.refers {settings : SchemaSettings} {leading : List Fragment} {extra : Option Fragment}
    {count : CountBounds} {body : Sequence} (form : ArrayForm settings layout leading extra count body)
    (leads : ∀ f ∈ leading, ∀ name ∈ f.ruleNames, known name) (extras : ∀ f ∈ extra, ∀ name ∈ f.ruleNames, known name) :
    Refers known body := by
  have fixed := Layout.refers_separated nameless leads
  have empty : Refers known layout.emptyArray := Layout.refers_emptyArray nameless
  have more {item : Fragment} (allowed : extra = some item) := refers_moreItems nameless (extras item allowed) count
  have list {item : Fragment} (allowed : extra = some item) : Refers known (layout.arrayOf [item, moreItems layout item count 1]) :=
    Layout.refers_arrayOf nameless (by simpa using ⟨extras item allowed, more allowed 1⟩)
  cases form with
  | bare => exact empty
  | fixed => exact Layout.refers_arrayOf nameless fixed
  | extended _ allowed => exact Layout.refers_arrayOf nameless (by simpa using ⟨fixed, more allowed leading.length⟩)
  | unlisted _ allowed => exact list allowed
  | optional _ allowed => exact settings.refers_orEmpty (list allowed) empty

theorem refers_membersAfter {members : List Member} (each : ∀ m ∈ members, Refers known m.pair) :
    Refers known (membersAfter layout members) := by
  induction members with
  | nil => simp [membersAfter]
  | cons m members ih =>
    have others := ih fun m member => each m (by simp [member])
    rw [membersAfter, Fragment.refers_append]
    refine ⟨?_, others⟩
    split_ifs <;> simp [nameless.between known, each m]

theorem refers_membersUntil {members : List Member} (each : ∀ m ∈ members, Refers known m.pair) :
    Refers known (membersUntil layout members) := by
  induction members with
  | nil => simp [membersUntil]
  | cons m members ih =>
    have rest : ∀ m ∈ members, Refers known m.pair := fun m member => each m (by simp [member])
    rw [membersUntil]
    split_ifs
    · simp [each m, refers_membersAfter nameless rest]
    · simp [nameless.between known, each m, ih rest]

end Schema

end

theorem Schema.refers_membersFrom {known : String → Prop} {pairs : List Sequence} {tails : List Fragment}
    {extra : Option Sequence} {last : Fragment} (each : ∀ pair ∈ pairs, Refers known pair)
    (follow : ∀ tail ∈ tails, ∀ name ∈ tail.ruleNames, known name) (extras : ∀ pair ∈ extra, Refers known pair)
    (final : ∀ name ∈ last.ruleNames, known name) :
    ∀ name ∈ (membersFrom pairs tails extra last).ruleNames, known name := by
  rw [membersFrom, Fragment.forall_ruleNames_group]
  refine List.forall_mem_append.mpr ⟨List.forall_mem_map.mpr fun (pair, tail) among => ?_, List.forall_mem_map.mpr ?_⟩
  · obtain ⟨one, next⟩ := List.of_mem_zip among
    simpa using ⟨each pair one, follow tail next⟩
  · intro pair given
    simpa using ⟨extras pair (by simpa using given), final⟩

namespace CommonRules

theorem refers_all (settings : SchemaSettings) : ∀ rule ∈ all settings, ∀ name ∈ rule.ruleNames, name ∈ names := by
  have common : ∀ rule ∈ fixed, ∀ name ∈ rule.ruleNames, name ∈ names := by decide
  have nameless := settings.nameless_inlineLayout
  have any : "basic_any" ∈ names := by decide
  have string : "basic_string" ∈ names := by decide
  have pair : Refers (· ∈ names) (settings.inlineLayout.pair (.rule "basic_string") (.rule "basic_any")) :=
    Layout.refers_pair nameless (by simpa using string) (by simpa using any)
  have list {pieces : Sequence} (each : Refers (· ∈ names) pieces) :
      Refers (· ∈ names) (pieces ++ [.many (settings.inlineLayout.another pieces)]) := by
    simpa using ⟨each, Layout.refers_another nameless each⟩
  have item : Refers (· ∈ names) [.rule "basic_any"] := by simpa using any
  have items := settings.refers_orEmpty (Layout.refers_arrayOf nameless (list item)) (Layout.refers_emptyArray nameless)
  have members := settings.refers_orEmpty (Layout.refers_objectOf nameless (list pair)) (Layout.refers_emptyObject nameless)
  refine List.forall_mem_append.mpr ⟨common, ?_⟩
  simp only [List.forall_mem_cons, FragmentRule.ruleNames, Fragment.forall_alternativeRuleNames]
  exact ⟨List.forall_mem_singleton.mpr items, List.forall_mem_singleton.mpr members, List.forall_mem_nil _⟩

end CommonRules

namespace Conversion

section

variable {known : String → Prop} {layout : Layout} (nameless : layout.Nameless) (string : known "basic_string")
include nameless string

theorem refers_extraPair {value : Fragment} (valued : ∀ name ∈ value.ruleNames, known name) :
    Refers known (extraPair layout value) :=
  Layout.refers_pair nameless (by simpa using string) valued

theorem refers_morePairs {extra : Option Fragment} (extras : ∀ f ∈ extra, ∀ name ∈ f.ruleNames, known name) :
    ∀ f ∈ morePairs layout extra, ∀ name ∈ f.ruleNames, known name := by
  intro f given
  obtain ⟨value, allowed, rfl⟩ := Option.map_eq_some_iff.mp given
  rw [Fragment.ruleNames_many]
  exact Layout.refers_another nameless (refers_extraPair nameless string (extras value allowed))

theorem refers_lastPairs {extra : Option Fragment} (extras : ∀ f ∈ extra, ∀ name ∈ f.ruleNames, known name) :
    ∀ name ∈ ((morePairs layout extra).getD .empty).ruleNames, known name := by
  have more := refers_morePairs nameless string extras
  cases given : morePairs layout extra with
  | none => simp
  | some f => exact more f given

end

/-- A name stands for a rule that every schema may refer to or that has been added, or for the rule of a reference,
which may be added later. -/
def State.Knows (s : State) (name : String) : Prop :=
  name ∈ CommonRules.names ∨ (∃ rule ∈ s.rules.toList, rule.name = name) ∨
    ∃ target, s.references.lookup target = some name

section

variable {s : State} {settings : SchemaSettings}

theorem State.knows_common {name : String} (common : name ∈ CommonRules.names) : s.Knows name := .inl common

theorem State.knows_of_rule {name : String} {alternatives : List Sequence}
    (rule : ⟨name, alternatives⟩ ∈ s.rules.toList) : s.Knows name :=
  .inr (.inl ⟨_, rule, rfl⟩)

theorem State.knows_of_reference {target name : String} (known : s.reference? target = some name) : s.Knows name := by
  unfold State.reference? at known
  split_ifs at known
  · obtain rfl := Option.some.inj known
    exact knows_common (by decide)
  · exact .inr (.inr ⟨target, known⟩)

theorem State.Names.knows {body : Sequence} {name : String} (stands : s.Names body name) (named : Refers s.Knows body) :
    s.Knows name := by
  rcases stands with rfl | rule
  · simpa using named
  · exact knows_of_rule rule

theorem State.Tails.refers {layout : Layout} {last : Fragment} (final : ∀ name ∈ last.ruleNames, s.Knows name)
    {pairs : List Sequence} {tails : List Fragment} (follow : s.Tails layout last pairs tails) :
    ∀ tail ∈ tails, ∀ name ∈ tail.ruleNames, s.Knows name := by
  induction follow with
  | none => exact List.forall_mem_nil _
  | last => exact List.forall_mem_singleton.mpr final
  | next _ rule ih => exact List.forall_mem_cons.mpr ⟨by simpa using knows_of_rule rule, ih⟩

theorem State.ObjectForm.refers {layout : Layout} (nameless : layout.Nameless) {members : List Schema.Member}
    {extra : Option Fragment} {body : Sequence} (form : s.ObjectForm settings layout members extra body)
    (each : ∀ m ∈ members, Refers s.Knows m.pair) (extras : ∀ f ∈ extra, ∀ name ∈ f.ruleNames, s.Knows name) :
    Refers s.Knows body := by
  have string : s.Knows "basic_string" := knows_common (by decide)
  have empty : Refers s.Knows layout.emptyObject := Layout.refers_emptyObject nameless
  have more : Refers s.Knows (morePairs layout extra).toList :=
    Fragment.refers_iff.mpr fun f given => refers_morePairs nameless string extras f (by simpa using given)
  cases form with
  | anchored =>
    exact Layout.refers_objectOf nameless (Fragment.refers_append.mpr ⟨Schema.refers_membersUntil nameless each, more⟩)
  | bare => exact empty
  | unlisted _ allowed =>
    have first := refers_extraPair nameless string (extras _ allowed)
    exact settings.refers_orEmpty (Layout.refers_objectOf nameless (Fragment.refers_append.mpr ⟨first, more⟩)) empty
  | chained _ _ follow =>
    have last := refers_lastPairs nameless string extras
    have pairs : ∀ pair ∈ extra.map (extraPair layout), Refers s.Knows pair := fun pair given => by
      obtain ⟨value, allowed, rfl⟩ := Option.map_eq_some_iff.mp given
      exact refers_extraPair nameless string (extras value allowed)
    have choice := Schema.refers_membersFrom (List.forall_mem_map.mpr each) (follow.refers last) pairs last
    exact settings.refers_orEmpty (Layout.refers_objectOf nameless (by simpa using choice)) empty

theorem refers_extraPiece {extra : Extra Inner} (each : ∀ i ∈ extra.toList, s.Knows i.name) :
    ∀ f ∈ extraPiece settings extra, ∀ name ∈ f.ruleNames, s.Knows name := by
  have any : s.Knows "basic_any" := State.knows_common (by decide)
  intro f given
  cases extra with
  | forbidden => cases given
  | unspecified =>
    rw [extraPiece] at given
    split_ifs at given
    · cases given
    · obtain rfl := Option.some.inj given
      simpa using any
  | schema inner =>
    obtain rfl := Option.some.inj given
    simpa [Inner.piece] using each inner (by simp [Extra.toList])

theorem refers_stringText (count : CountBounds) : Refers s.Knows (stringText count) := by
  have string : s.Knows "basic_string" := State.knows_common (by decide)
  have character : s.Knows "basic_char" := State.knows_common (by decide)
  unfold stringText
  split
  next => simpa using string
  next =>
    have characters : ∀ name ∈ (Fragment.bounded (.rule "basic_char") count.min count.max).ruleNames, s.Knows name :=
      fun name member => by
        obtain rfl : name = "basic_char" := by simpa using Fragment.ruleNames_bounded _ _ member
        exact character
    simpa [CommonRules.quotationMark] using characters

/-- All rule names in what a schema renders as are known. -/
theorem Renders.refers {depth : Nat} {schema : Schema} {body : Sequence} (renders : Renders settings s depth schema body) :
    Refers s.Knows body := by
  induction renders with
  | anything =>
    have any : s.Knows "basic_any" := State.knows_common (by decide)
    simpa using any
  | annotated _ ih => exact ih
  | reference known => simpa using State.knows_of_reference known
  | constant => simp [valueText]
  | enumeration => simp [valueText]
  | union _ stands ih =>
    simpa [Inner.piece] using fun m member => (stands m member).knows (ih m member)
  | types _ ih => simpa using fun body schema member => ih (schema, body) member
  | @basic depth type =>
    have basic : s.Knows (basicRule type) := State.knows_common (by cases type <;> decide)
    simpa using basic
  | text => exact refers_stringText _
  | @array depth leading extra count body _ stands written ih =>
    have knows (i : Inner) (member : i ∈ leading ++ extra.toList) : s.Knows i.name := (stands i member).knows (ih i member)
    refine (Schema.arrayForm_of_arrayText written).2.2.refers (settings.nameless_layout depth) ?_ ?_
    · exact List.forall_mem_map.mpr fun i member => by simpa [Inner.piece] using knows i (by simp [member])
    · exact refers_extraPiece fun i member => knows i (by simp [member])
  | @object depth properties extra body _ stands written ih =>
    have knows (i : Inner) (member : i ∈ properties.map (·.2.2) ++ extra.toList) : s.Knows i.name :=
      (stands i member).knows (ih i member)
    have nameless := settings.nameless_layout depth
    refine written.refers nameless ?_ (refers_extraPiece fun i member => knows i (by simp [member]))
    refine List.forall_mem_map.mpr fun p member => Layout.refers_pair nameless (by simp) ?_
    simpa [Inner.piece] using knows p.2.2 (List.mem_append_left _ (List.mem_map_of_mem member))

end

end Conversion

end GuidedDecoding
