import Mathlib
import GuidedDecoding.Proofs.Schema.Visits

open scoped Computability

namespace GuidedDecoding

open Fragment (Sequence denotesSequence)

/-- What arrays and objects are to be at each depth suits the layouts of all depths, and all values without a schema
are among that. -/
structure SchemaSettings.Words (settings : SchemaSettings) (wording : Nat → Wording) : Prop where
  layout : ∀ depth, (settings.layout depth).Words (wording depth)
  deeper : ∀ depth, (wording depth).value = (wording (depth + 1)).whole
  common : CommonRules.Admits settings fun language => ∃ depth, (wording depth).whole = language
  text : ∀ depth (value : Json), value.text ∈ (wording depth).whole

namespace Conversion

section

variable {s : State} {layout : Layout}

theorem State.Tails.exists_rule {last : Fragment} {pairs : List Sequence} {tails : List Fragment}
    (follow : s.Tails layout last pairs tails) : ∀ tail ∈ tails, tail = last ∨
      ∃ name, ∃ next ∈ pairs, ∃ inner ∈ tails, tail = .rule name ∧
        ⟨name, [[inner], layout.between ++ next ++ [inner]]⟩ ∈ s.rules.toList := by
  induction follow with
  | none => exact List.forall_mem_nil _
  | last => exact List.forall_mem_singleton.mpr (.inl rfl)
  | @next pair next rest tail later name _ rule ih =>
    refine List.forall_mem_cons.mpr ⟨.inr ⟨name, next, by simp, tail, by simp, rfl, rule⟩, fun other member => ?_⟩
    rcases ih other member with last | ⟨name, pair, listed, inner, among, same, rule⟩
    · exact .inl last
    · exact .inr ⟨name, pair, List.mem_cons_of_mem _ listed, inner, List.mem_cons_of_mem _ among, same, rule⟩

theorem lastPairs_ne_rule (extra : Option Fragment) (name : String) :
    (morePairs layout extra).getD .empty ≠ .rule name := by
  cases extra <;> nofun

end

section

variable {promises : Promises} {layout : Layout} {wording : Wording} (words : layout.Words wording)
  (string : promises.made "basic_string" JsonSyntax.string) {extra : Option Fragment}
  (extras : ∀ value ∈ extra, promises.Writes [value] wording.value)
include words string extras

theorem writes_extraPair : ∀ value ∈ extra, promises.Writes (extraPair layout value) wording.member :=
  fun value given => words.pair (Promises.writes_rule string) (extras value given)

theorem writes_morePairs : ∀ more ∈ morePairs layout extra, promises.Writes [more] (wording.comma * wording.member)∗ := by
  intro more given
  obtain ⟨value, present, rfl⟩ := Option.map_eq_some_iff.mp given
  exact (Layout.writes_another words (writes_extraPair words string extras value present)).many

theorem writes_lastPairs :
    promises.Writes [(morePairs layout extra).getD .empty] (wording.comma * wording.member)∗ := by
  have more := writes_morePairs words string extras
  cases given : morePairs layout extra with
  | none => exact Promises.writes_ofText (Language.nil_mem_kstar _)
  | some f => exact more f given

theorem writes_furtherPairs : promises.Writes (morePairs layout extra).toList (wording.comma * wording.member)∗ := by
  have more := writes_morePairs words string extras
  cases given : morePairs layout extra with
  | none => exact Promises.writes_nil.le one_le_kstar
  | some f => exact more f given

end

theorem State.Tails.writes {s : State} {promises : Promises} {layout : Layout} {last : Fragment} {pairs : List Sequence}
    {tails : List Fragment} {language : Language Char} (follow : s.Tails layout last pairs tails)
    (final : promises.Writes [last] language) (made : ∀ name, .rule name ∈ tails → promises.made name language) :
    ∀ tail ∈ tails, promises.Writes [tail] language := by
  intro tail member
  rcases follow.exists_rule tail member with rfl | ⟨name, _, _, _, _, rfl, _⟩
  · exact final
  · exact Promises.writes_rule (made name member)

theorem State.ObjectForm.writes {s : State} {settings : SchemaSettings} {promises : Promises}
    (string : promises.made "basic_string" JsonSyntax.string) {layout : Layout} {wording : Wording}
    (words : layout.Words wording) {members : List Schema.Member} {extra : Option Fragment} {body : Sequence}
    (form : s.ObjectForm settings layout members extra body)
    (each : ∀ m ∈ members, promises.Writes m.pair wording.member)
    (extras : ∀ value ∈ extra, promises.Writes [value] wording.value)
    (made : ∀ tails, s.Tails layout ((morePairs layout extra).getD .empty) (members.map Schema.Member.pair) tails →
      ∀ name, .rule name ∈ tails → promises.made name (wording.comma * wording.member)∗) :
    promises.Writes body wording.whole := by
  have pairs := writes_extraPair words string extras
  have more := writes_furtherPairs words string extras
  have final := writes_lastPairs words string extras
  have empty := words.emptyObject promises
  cases form with
  | anchored required =>
    have list := (Schema.writes_membersUntil words required each).append more
    exact words.objectOf (list.le words.members.more)
  | bare => exact empty
  | unlisted _ allowed =>
    have list := ((pairs _ allowed).append more).le words.members.several
    exact settings.writes_orEmpty (words.objectOf list) empty
  | chained _ _ follow =>
    have further : ∀ pair ∈ extra.map (extraPair layout), promises.Writes pair wording.member := by
      intro pair given
      obtain ⟨value, present, rfl⟩ := Option.map_eq_some_iff.mp given
      exact pairs value present
    have list := Schema.writes_membersFrom words (List.forall_mem_map.mpr each) (follow.writes final (made _ follow)) further final
    exact settings.writes_orEmpty (words.objectOf list) empty

section

variable (settings : SchemaSettings) (met : Nat → Schema → Prop) (s : State)

/-- A rule of this name has the body of a schema that is met at this depth. -/
def State.ValueAt (depth : Nat) (name : String) : Prop :=
  ∃ schema body, met depth schema ∧ Renders settings s depth schema body ∧ ⟨name, [body]⟩ ∈ s.rules.toList

def State.FollowsAt (depth : Nat) (name : String) : Prop :=
  ∃ (properties : List (String × Bool × Inner)) (extra : Extra Inner) (tails : List Fragment),
    (∀ i ∈ properties.map (·.2.2) ++ extra.toList,
      met (depth + 1) i.schema ∧ Renders settings s (depth + 1) i.schema i.body ∧ s.Names i.body i.name) ∧
    s.Tails (settings.layout depth) ((morePairs (settings.layout depth) (extraPiece settings extra)).getD .empty)
      ((properties.map (memberOf (settings.layout depth))).map Schema.Member.pair) tails ∧
    .rule name ∈ tails

variable (wording : Nat → Wording) (resolve : List Char → Option Schema)

/-- Every reference is known by the name of a rule whose schema is to be the same as where the reference is met. -/
structure State.Placed : Prop where
  words : settings.Words wording
  named : s.Named
  inherited : ∀ {depth schema part}, met depth schema → Schema.Part resolve schema part → met (depth + schema.levels) part
  referred : ∀ {depth target name}, met depth (.reference target) → s.reference? target = some name →
    ∃ other, (wording other).whole = (wording depth).whole ∧ s.ValueAt settings met other name

end

section

variable {settings : SchemaSettings} {met : Nat → Schema → Prop} {s : State} {wording : Nat → Wording}
  {resolve : List Char → Option Schema}

theorem State.FollowsAt.exists_rule {depth : Nat} {name : String} (follows : s.FollowsAt settings met depth name) :
    ∃ alternatives, ⟨name, alternatives⟩ ∈ s.rules.toList := by
  obtain ⟨_, _, _, _, tails, member⟩ := follows
  rcases tails.exists_rule _ member with last | ⟨_, _, _, _, _, same, rule⟩
  · exact absurd last.symm (lastPairs_ne_rule _ name)
  · obtain rfl := Fragment.rule.inj same
    exact ⟨_, rule⟩

namespace State.Placed

variable (placed : s.Placed settings met wording resolve)

/-- What the rules of a finished state are relied on for. -/
def promises : Promises where
  made name language :=
    (CommonRules.promises fun language => ∃ depth, (wording depth).whole = language).made name language ∨
    (∃ depth, s.ValueAt settings met depth name ∧ language = (wording depth).whole) ∨
    ∃ depth, s.FollowsAt settings met depth name ∧ language = ((wording depth).comma * (wording depth).member)∗
  named := by
    rintro name _ (common | ⟨_, ⟨_, _, _, _, rule⟩, _⟩ | ⟨_, follows, _⟩)
    · exact Promises.named _ common
    · exact placed.named.rules _ rule
    · obtain ⟨_, rule⟩ := follows.exists_rule
      exact placed.named.rules _ rule

theorem made_string : placed.promises.made "basic_string" JsonSyntax.string := .inl CommonRules.made_string

theorem made_value (depth : Nat) {name : String} (listed : name ∈ CommonRules.valueNames) :
    placed.promises.made name (wording depth).whole := .inl (.inr ⟨listed, depth, rfl⟩)

include placed in
theorem string_le_whole (depth : Nat) : JsonSyntax.string ≤ (wording depth).whole :=
  fun _ text => placed.words.common.scalar ⟨depth, rfl⟩ (.inl (.inl (.inl text)))

theorem writes_stringText (count : CountBounds) : placed.promises.Writes (stringText count) JsonSyntax.string := by
  have character : placed.promises.made "basic_char" JsonSyntax.character := .inl CommonRules.made_character
  have quotation : placed.promises.Writes [CommonRules.quotationMark] {['"']} := Promises.writes_exactly ['"']
  unfold stringText
  split
  next => exact Promises.writes_rule placed.made_string
  next => exact (quotation.append ((Promises.writes_rule character).bounded count.min count.max)).append quotation

theorem writes_extraPiece {depth : Nat} {extra : Extra Inner}
    (each : ∀ i ∈ extra.toList, placed.promises.Writes [i.piece] (wording depth).whole) :
    ∀ f ∈ extraPiece settings extra, placed.promises.Writes [f] (wording depth).whole := by
  intro f given
  cases extra with
  | forbidden => cases given
  | unspecified =>
    rw [extraPiece] at given
    split_ifs at given
    · cases given
    · cases given
      exact Promises.writes_rule (placed.made_value depth (by simp [CommonRules.valueNames]))
  | schema inner =>
    cases given
    exact each inner (List.mem_singleton_self inner)

section

variable {depth : Nat} {properties : List (String × Bool × Inner)} {extra : Extra Inner}
  (piece : ∀ i ∈ properties.map (·.2.2) ++ extra.toList, placed.promises.Writes [i.piece] (wording (depth + 1)).whole)
include piece

theorem writes_extras : ∀ f ∈ extraPiece settings extra, placed.promises.Writes [f] (wording depth).value := by
  rw [placed.words.deeper]
  exact placed.writes_extraPiece fun i member => piece i (List.mem_append_right _ member)

theorem writes_pairs : ∀ m ∈ properties.map (memberOf (settings.layout depth)), placed.promises.Writes m.pair (wording depth).member := by
  refine List.forall_mem_map.mpr fun p member => (placed.words.layout depth).pair (Promises.writes_ofText (Json.quote_mem_string p.1)) ?_
  rw [placed.words.deeper]
  exact piece p.2.2 (List.mem_append_left _ (List.mem_map_of_mem member))

end

theorem writes_names {depth : Nat} {schema : Schema} {body : Sequence} {name : String} (known : met depth schema)
    (stands : s.Names body name) (renders : Renders settings s depth schema body)
    (writes : placed.promises.Writes body (wording depth).whole) : placed.promises.Writes [.rule name] (wording depth).whole := by
  rcases stands with rfl | rule
  · exact writes
  · exact Promises.writes_rule (.inr (.inl ⟨depth, ⟨schema, body, known, renders, rule⟩, rfl⟩))

end State.Placed

theorem Renders.writes (placed : s.Placed settings met wording resolve) {depth : Nat} {schema : Schema} {body : Sequence}
    (renders : Renders settings s depth schema body) (known : met depth schema) :
    placed.promises.Writes body (wording depth).whole := by
  have scalar {name : String} (listed : name ∈ CommonRules.valueNames) (depth : Nat) :
      placed.promises.Writes [.rule name] (wording depth).whole := Promises.writes_rule (placed.made_value depth listed)
  induction renders with
  | anything => exact scalar (by simp [CommonRules.valueNames]) _
  | annotated _ ih => exact ih (placed.inherited known .annotated)
  | reference refers =>
    obtain ⟨other, same, value⟩ := placed.referred known refers
    exact Promises.writes_rule (.inr (.inl ⟨other, value, same.symm⟩))
  | constant => exact Promises.writes_ofText (placed.words.text _ _)
  | enumeration =>
    exact Promises.WritesAll.group (List.forall_mem_map.mpr fun value _ => Promises.writes_ofText (placed.words.text _ value))
  | union each stands ih =>
    refine Promises.WritesAll.group (List.forall_mem_map.mpr fun m member => ?_)
    have inside := placed.inherited known (.union (List.mem_map_of_mem member))
    exact placed.writes_names inside (stands m member) (each m member) (ih m member inside)
  | types _ ih =>
    refine Promises.WritesAll.group (List.forall_mem_map.mpr fun a member => ?_)
    exact ih a member (placed.inherited known (.types (List.mem_map_of_mem member)))
  | @basic depth type => exact scalar (by cases type <;> simp [CommonRules.valueNames, basicRule]) depth
  | text => exact (placed.writes_stringText _).le (placed.string_le_whole _)
  | @array depth leading extra count body each stands written ih =>
    have piece (i : Inner) (member : i ∈ leading ++ extra.toList) : placed.promises.Writes [i.piece] (wording (depth + 1)).whole := by
      have inside := placed.inherited known (part_array_iff.mpr ⟨i, member, rfl⟩)
      exact placed.writes_names inside (stands i member) (each i member) (ih i member inside)
    have extras := placed.writes_extraPiece fun i member => piece i (List.mem_append_right _ member)
    rw [← placed.words.deeper] at piece extras
    exact Schema.writes_arrayText (placed.words.layout depth)
      (List.forall_mem_map.mpr fun i member => piece i (List.mem_append_left _ member)) extras written
  | @object depth properties extra body each stands written ih =>
    have inside (i : Inner) (member : i ∈ properties.map (·.2.2) ++ extra.toList) : met (depth + 1) i.schema :=
      placed.inherited known (part_object_iff.mpr ⟨i, member, rfl⟩)
    have piece (i : Inner) (member : i ∈ properties.map (·.2.2) ++ extra.toList) :=
      placed.writes_names (inside i member) (stands i member) (each i member) (ih i member (inside i member))
    refine written.writes placed.made_string (placed.words.layout depth) (placed.writes_pairs piece)
      (placed.writes_extras piece) fun tails follow name member => ?_
    exact .inr (.inr ⟨depth, ⟨properties, extra, tails, fun i among => ⟨inside i among, each i among, stands i among⟩,
      follow, member⟩, rfl⟩)

namespace State.Placed

variable (placed : s.Placed settings met wording resolve)

theorem kept_follows {depth : Nat} {name : String} (follows : s.FollowsAt settings met depth name) :
    ∃ alternatives, ⟨name, alternatives⟩ ∈ s.rules.toList ∧
      placed.promises.WritesAll alternatives ((wording depth).comma * (wording depth).member)∗ := by
  obtain ⟨properties, extra, tails, each, follow, member⟩ := follows
  have words := placed.words.layout depth
  have piece (i : Inner) (member : i ∈ properties.map (·.2.2) ++ extra.toList) :=
    placed.writes_names (each i member).1 (each i member).2.2 (each i member).2.1
      ((each i member).2.1.writes placed (each i member).1)
  have final := writes_lastPairs words placed.made_string (placed.writes_extras piece)
  have tail := follow.writes final fun name member =>
    .inr (.inr ⟨depth, ⟨properties, extra, tails, each, follow, member⟩, rfl⟩)
  rcases follow.exists_rule _ member with last | ⟨_, next, listed, inner, among, same, rule⟩
  · exact absurd last.symm (lastPairs_ne_rule _ name)
  · obtain rfl := Fragment.rule.inj same
    obtain ⟨m, given, rfl⟩ := List.mem_map.mp listed
    refine ⟨_, rule, List.forall_mem_cons.mpr ⟨tail inner among, List.forall_mem_singleton.mpr ?_⟩⟩
    exact (((words.between _).append (placed.writes_pairs piece m given)).append (tail inner among)).le mul_kstar_le_kstar

theorem kept : placed.promises.KeptBy (s.allRules settings) := by
  rintro name _ (common | ⟨depth, ⟨schema, body, known, renders, rule⟩, rfl⟩ | ⟨depth, follows, rfl⟩)
  · obtain ⟨rule, member, named, writes⟩ := CommonRules.kept placed.words.common name _ common
    exact ⟨rule, List.mem_append_left _ member, named, fun pieces among => (writes pieces among).mono fun _ _ => .inl⟩
  · exact ⟨_, List.mem_append_right _ rule, rfl, (renders.writes placed known).all⟩
  · obtain ⟨alternatives, rule, writes⟩ := placed.kept_follows follows
    exact ⟨_, List.mem_append_right _ rule, rfl, writes⟩

include placed in
theorem body_le (distinct : ((s.allRules settings).map FragmentRule.name).Nodup) {depth : Nat} {schema : Schema}
    {body : Sequence} (renders : Renders settings s depth schema body) (known : met depth schema) :
    denotesSequence (s.texts settings) body ≤ (wording depth).whole :=
  (renders.writes placed known).within _ (placed.kept.texts distinct)

include placed in
theorem any_le (distinct : ((s.allRules settings).map FragmentRule.name).Nodup) (depth : Nat) :
    s.texts settings "basic_any" ≤ (wording depth).whole :=
  placed.kept.texts distinct _ _ (placed.made_value depth (by simp [CommonRules.valueNames]))

end State.Placed

end

theorem Complete.placed {settings : SchemaSettings} {json : Json} {s : State} (complete : Complete settings json s)
    {wording : Wording} (words : settings.Words fun _ => wording) :
    s.Placed settings (fun _ _ => True) (fun _ => wording) (Schema.resolver json) where
  words := words
  named := complete.named
  inherited _ _ := trivial
  referred _ known := by
    rcases complete.reference_cases known with ⟨_, body, renders, rule⟩ | ⟨_, schema, depth, body, _, _, _, renders, rule⟩
    · exact ⟨0, rfl, _, body, trivial, renders, rule⟩
    · exact ⟨depth, rfl, schema, body, trivial, renders, rule⟩

end Conversion

end GuidedDecoding
