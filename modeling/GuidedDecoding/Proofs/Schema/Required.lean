import Mathlib
import GuidedDecoding.Proofs.Schema.Keys

open scoped Computability

namespace GuidedDecoding

open Fragment (Sequence denotesSequence)
open JsonSyntax (isSpace Pair IsObject)

namespace Layout

section

variable (layout : Layout) (rules : String → Language Char)

def objectOfKinds : List (Language Char × Language Char) → Language Char
  | [] => layout.bare rules '\x7b' '\x7d'
  | kind :: rest => layout.enclosed rules '\x7b' '\x7d'
      (layout.joined rules ((kind :: rest).map fun kind => layout.pairs rules kind.1 kind.2))

end

variable {layout : Layout} {rules : String → Language Char} {kinds : List (Language Char × Language Char)} {text : List Char}

theorem exists_members_of_kinds (among : text ∈ layout.objectOfKinds rules kinds) :
    ∃ members, List.Forall₂ IsOf members kinds ∧ text ∈ layout.objectWith rules members := by
  cases kinds with
  | nil => exact ⟨[], .nil, among⟩
  | cons kind kinds => exact exists_members (List.cons_ne_nil kind kinds) among

theorem exists_pair_with {kind : Language Char × Language Char} (among : text ∈ layout.pairs rules kind.1 kind.2) {m : Pair}
    (isOf : IsOf m kind) : ∃ other ∈ layout.pairs rules kind.1 kind.2, other ∈ layout.pairs rules {m.key} {m.value} := by
  obtain ⟨_, ⟨_, _, gap, separates, rfl⟩, _, _, rfl⟩ := among
  exact ⟨m.key ++ gap ++ m.value, Language.append_mem_mul (Language.append_mem_mul isOf.1 separates) isOf.2,
    Language.append_mem_mul (Language.append_mem_mul rfl separates) rfl⟩

theorem exists_following_with {members : List Pair} (isOf : List.Forall₂ IsOf members kinds)
    (among : text ∈ layout.following rules (kinds.map fun kind => layout.pairs rules kind.1 kind.2)) :
    ∃ other ∈ layout.following rules (kinds.map fun kind => layout.pairs rules kind.1 kind.2),
      other ∈ layout.following rules (members.map fun m => layout.pairs rules {m.key} {m.value}) := by
  induction isOf generalizing text with
  | nil => exact ⟨text, among, among⟩
  | cons isOf _ ih =>
    obtain ⟨_, ⟨gap, separates, _, first, rfl⟩, _, others, rfl⟩ := among
    obtain ⟨one, kept, single⟩ := exists_pair_with first isOf
    obtain ⟨rest, later, more⟩ := ih others
    exact ⟨gap ++ one ++ rest, Language.append_mem_mul (Language.append_mem_mul separates kept) later,
      Language.append_mem_mul (Language.append_mem_mul separates single) more⟩

theorem exists_object_with {members : List Pair} (isOf : List.Forall₂ IsOf members kinds)
    (among : text ∈ layout.objectOfKinds rules kinds) :
    ∃ other ∈ layout.objectOfKinds rules kinds, other ∈ layout.objectWith rules members := by
  cases isOf with
  | nil => exact ⟨text, among, among⟩
  | cons isOf others =>
    obtain ⟨_, ⟨_, ⟨front, opened, _, list, rfl⟩, back, closed, rfl⟩, _, rfl, rfl⟩ := among
    rw [List.map_cons, joined_cons] at list
    obtain ⟨_, first, _, rest, rfl⟩ := list
    obtain ⟨one, kept, single⟩ := exists_pair_with first isOf
    obtain ⟨more, later, same⟩ := exists_following_with others rest
    have enclosed {inside : Language Char} (written : one ++ more ∈ inside) :
        front ++ (one ++ more) ++ back ++ ['\x7d'] ∈ layout.enclosed rules '\x7b' '\x7d' inside :=
      Language.append_mem_mul (Language.append_mem_mul (Language.append_mem_mul opened written) closed) rfl
    refine ⟨front ++ (one ++ more) ++ back ++ ['\x7d'], enclosed ?_, enclosed ?_⟩
    · rw [List.map_cons, joined_cons]
      exact Language.append_mem_mul kept later
    · rw [List.map_cons, joined_cons]
      exact Language.append_mem_mul single same

end Layout

namespace Keywords

def listedKeys (keywords : Keywords) : List String :=
  ((keywords.get? "properties").map fun reading => reading.members.map Prod.fst).getD []

theorem object_eq (keywords : Keywords) : keywords.object = .unsupported .propertiesNotObject ∨
    ∃ properties extra, keywords.object = .object properties extra ∧ properties.map Prod.fst = keywords.listedKeys ∧
      ∀ p ∈ properties, p.2.1 = keywords.required.contains p.1 := by
  unfold object
  dsimp only
  split
  next none => exact .inr ⟨_, _, rfl, by simp [listedKeys, none], List.forall_mem_nil _⟩
  next members listed =>
    refine .inr ⟨_, _, rfl, ?_, List.forall_mem_map.mpr fun p _ => rfl⟩
    rw [listedKeys, listed, List.map_map]
    rfl
  next => exact .inl rfl

end Keywords

namespace Conversion

section

variable (settings : SchemaSettings) (final : State) (depth : Nat)

/-- A text is an object with these members. If the separators are those of JSON, there is no other way to read it. -/
structure HasMembers (text : List Char) (members : List Pair) : Prop where
  written : text ∈ (settings.layout depth).objectWith (final.texts settings) members
  unique : settings.Surrounded → ∀ others, IsObject text others ↔ others = members

/-- All objects that a body matches have the listed keys that are required. Of the other keys none is in all objects,
required or not. -/
structure RequiresListed (keywords : Keywords) (body : Sequence) : Prop where
  listed : ∀ text ∈ denotesSequence (final.texts settings) body, ∃ members, HasMembers settings final depth text members ∧
    ∀ key ∈ keywords.required, key ∈ keywords.listedKeys → ∃ m ∈ members, m.name? = some key
  unlisted : ∀ key, key ∉ keywords.listedKeys → (∃ text, text ∈ denotesSequence (final.texts settings) body) →
    ∃ text ∈ denotesSequence (final.texts settings) body, ∃ members, HasMembers settings final depth text members ∧
      ∀ m ∈ members, m.name? ≠ some key
  accepted : ∀ grammar, final.Compiles settings body grammar → ∀ w : List UInt8,
    (w.foldl grammar.automaton.step grammar.automaton.initial).accepting = true ↔
      w ∈ encoded (denotesSequence (final.texts settings) body)

end

section

variable {settings : SchemaSettings} {json : Json} {final : State} {depth : Nat}
  {properties : List (String × Bool × Schema)} {extra : Extra Schema} {body : Sequence}

theorem Visit.mem_iff_kinds (visit : Visit settings json final depth (.object properties extra) body) (text : List Char) :
    text ∈ denotesSequence (final.texts settings) body ↔ ∃ chosen more, chosen.Sublist properties ∧
      chosen.filter (·.2.1) = properties.filter (·.2.1) ∧ (final.extraTexts settings (depth + 1) extra = none → more = 0) ∧
      (memberKinds settings final depth extra chosen more = [] → EmptyObject settings final depth properties extra) ∧
      text ∈ (settings.layout depth).objectOfKinds (final.texts settings) (memberKinds settings final depth extra chosen more) := by
  have none {chosen : List (String × Bool × Schema)} {more : Nat} :
      memberKinds settings final depth extra chosen more = [] ↔ chosen = [] ∧ more = 0 := by
    simp [memberKinds]
  have some {chosen : List (String × Bool × Schema)} {more : Nat}
      (some : memberKinds settings final depth extra chosen more ≠ []) :
      (settings.layout depth).objectOfKinds (final.texts settings) (memberKinds settings final depth extra chosen more) =
        (settings.layout depth).enclosed (final.texts settings) '\x7b' '\x7d'
          ((settings.layout depth).joined (final.texts settings) (chosen.map (listedPair settings final depth) ++
            List.replicate more (furtherPair settings final depth extra))) := by
    rw [← map_pairs_memberKinds]
    obtain ⟨kind, rest, same⟩ := List.exists_cons_of_ne_nil some
    rw [same]
    rfl
  rw [visit.mem_iff]
  constructor
  · rintro (⟨chosen, more, sublist, required, allowed, inhabited, inside⟩ | ⟨empty, bare⟩)
    · have inhabited : memberKinds settings final depth extra chosen more ≠ [] := by
        rw [Ne, none]
        tauto
      exact ⟨chosen, more, sublist, required, allowed, fun nothing => absurd nothing inhabited, (some inhabited).symm ▸ inside⟩
    · have optional : properties.filter (·.2.1) = [] := by
        rcases empty with ⟨rfl, _⟩ | ⟨_, optional⟩
        · rfl
        · simpa using optional
      refine ⟨[], 0, List.nil_sublist _, optional.symm, fun _ => rfl, fun _ => empty, ?_⟩
      rw [none.mpr ⟨rfl, rfl⟩]
      exact bare
  · rintro ⟨chosen, more, sublist, required, allowed, empty, among⟩
    by_cases nothing : memberKinds settings final depth extra chosen more = []
    · rw [nothing] at among
      exact .inr ⟨empty nothing, among⟩
    · refine .inl ⟨chosen, more, sublist, required, allowed, ?_, some nothing ▸ among⟩
      rw [none] at nothing
      tauto

theorem hasMembers (visit : Visit settings json final depth (.object properties extra) body) {members : List Pair}
    (first : ListedFirst settings final depth properties extra members) {text : List Char}
    (written : text ∈ (settings.layout depth).objectWith (final.texts settings) members) :
    HasMembers settings final depth text members := by
  refine ⟨written, fun surrounded others => ?_⟩
  have object := first.isObject surrounded visit written
  exact ⟨fun also => also.unique object, fun same => same ▸ object⟩

theorem exists_name_of_required {chosen : List (String × Bool × Schema)}
    (required : chosen.filter (·.2.1) = properties.filter (·.2.1)) {more : Nat} {members : List Pair}
    (isOf : List.Forall₂ Layout.IsOf members (memberKinds settings final depth extra chosen more))
    {p : String × Bool × Schema} (listed : p ∈ properties) (necessary : p.2.1 = true) : ∃ m ∈ members, m.name? = some p.1 := by
  have kept : p ∈ chosen.filter (·.2.1) := required ▸ List.mem_filter.mpr ⟨listed, necessary⟩
  obtain ⟨m, member, named, _⟩ := (exists_partner isOf).2 _
    (List.mem_append_left _ (List.mem_map_of_mem (f := listedKind settings final depth) (List.mem_filter.mp kept).1))
  exact ⟨m, member, Json.name?_of_key named⟩

theorem forall₂_map_replicate {α β : Type} {r : α → β → Prop} {b : β} {f : α → α} (keeps : ∀ a, r a b → r (f a) b)
    {l : List α} {n : Nat} (all : List.Forall₂ r l (List.replicate n b)) :
    List.Forall₂ r (l.map f) (List.replicate n b) := by
  induction n generalizing l with
  | zero =>
    cases all
    exact .nil
  | succ n ih =>
    rw [List.replicate_succ] at all ⊢
    cases all with
    | cons first rest => exact .cons (keeps _ first) (ih rest)

theorem exists_members_without {chosen : List (String × Bool × Schema)} {more : Nat} {members : List Pair}
    (isOf : List.Forall₂ Layout.IsOf members (memberKinds settings final depth extra chosen more)) {key : String}
    (unlisted : ∀ p ∈ chosen, p.1 ≠ key) :
    ∃ others, List.Forall₂ Layout.IsOf others (memberKinds settings final depth extra chosen more) ∧
      ∀ m ∈ others, m.name? ≠ some key := by
  obtain ⟨listed, further, rfl, front, back⟩ := forall₂_append_right isOf
  -- all further members get a key that is longer than the one to be avoided
  let renamed (m : Pair) : Pair := ⟨Json.quote (key ++ "_"), m.value⟩
  have longer : key ++ "_" ≠ key := fun same => by
    have length := congrArg String.length same
    have one : "_".length = 1 := rfl
    rw [String.length_append] at length
    omega
  refine ⟨listed ++ further.map renamed, List.rel_append front (forall₂_map_replicate (fun m isOf => ?_) back),
    List.forall_mem_append.mpr ⟨fun m member => ?_, List.forall_mem_map.mpr fun m _ => ?_⟩⟩
  · exact ⟨Json.quote_mem_string _, isOf.2⟩
  · obtain ⟨kind, among, named, _⟩ := (exists_partner front).1 m member
    obtain ⟨p, taken, rfl⟩ := List.mem_map.mp among
    rw [Json.name?_of_key named]
    exact fun same => unlisted p taken (Option.some.inj same)
  · rw [Json.name?_of_key rfl]
    exact fun same => longer (Option.some.inj same)

/-- A key that is required is in all objects if it is listed. Keys that are not listed are not, even if they are
required. -/
theorem Visit.requiresListed {keywords : Keywords} (distinct : json.Distinct)
    (visit : Visit settings json final depth keywords.object body) : RequiresListed settings final depth keywords body := by
  rcases keywords.object_eq with fault | ⟨properties, extra, same, listed, required⟩
  · rw [fault] at visit
    cases visit.renders
  · rw [same] at visit
    have keys : (properties.map Prod.fst).Nodup := Schema.distinct_of_uses visit.uses distinct
    refine ⟨fun text matched => ?_, fun key unlisted some => ?_, fun grammar compiles w => visit.complete.accepting_iff compiles w⟩
    · obtain ⟨chosen, more, sublist, all, _, _, among⟩ := (visit.mem_iff_kinds text).mp matched
      obtain ⟨members, isOf, written⟩ := Layout.exists_members_of_kinds among
      refine ⟨members, hasMembers visit (listedFirst_of_isOf keys sublist isOf) written, fun key necessary among => ?_⟩
      rw [← listed] at among
      obtain ⟨p, member, rfl⟩ := List.mem_map.mp among
      exact exists_name_of_required all isOf member (by simpa [required p member] using necessary)
    · obtain ⟨text, matched⟩ := some
      obtain ⟨chosen, more, sublist, all, allowed, empty, among⟩ := (visit.mem_iff_kinds text).mp matched
      obtain ⟨_, isOf, _⟩ := Layout.exists_members_of_kinds among
      have apart : ∀ p ∈ chosen, p.1 ≠ key := by
        rintro p taken rfl
        exact unlisted (listed ▸ List.mem_map_of_mem (sublist.subset taken))
      obtain ⟨members, isOf, without⟩ := exists_members_without isOf apart
      obtain ⟨other, kept, written⟩ := Layout.exists_object_with isOf among
      exact ⟨other, (visit.mem_iff_kinds other).mpr ⟨chosen, more, sublist, all, allowed, empty, kept⟩, members,
        hasMembers visit (listedFirst_of_isOf keys sublist isOf) written, without⟩

def demanding : List (String × Json) :=
  [("properties", .object [("a", .object [("type", .string "integer")])]), ("required", .array [.string "a", .string "b"]),
    ("additionalProperties", .bool true)]

theorem requiresListed_demanding : ∃ final body, (Json.object demanding).Distinct ∧
    Visit {} (.object demanding) final 0 (keywordsOf demanding).object body ∧
    (keywordsOf demanding).required = ["a", "b"] ∧ (keywordsOf demanding).listedKeys = ["a"] ∧
    RequiresListed {} final 0 (keywordsOf demanding) body := by
  have distinct : (Json.object demanding).Distinct := by
    have integer : (Json.object [("type", .string "integer")]).Distinct :=
      .object (by decide) (List.forall_mem_singleton.mpr .string)
    have properties : (Json.object [("a", .object [("type", .string "integer")])]).Distinct :=
      .object (by decide) (List.forall_mem_singleton.mpr integer)
    have required : (Json.array [.string "a", .string "b"]).Distinct := .array (by simp [Json.Distinct.string])
    refine .object (by decide) ?_
    simp only [demanding, List.forall_mem_cons]
    exact ⟨properties, required, .bool, List.forall_mem_nil _⟩
  have converts : ((Conversion.ofJson {} (.object demanding)).run.run {}).1.isOk = true := by with_unfolding_all decide
  obtain ⟨final, body, visit⟩ := Visit.exists_of_isOk converts
  have visit : Visit {} (.object demanding) final 0 (.annotated [] (keywordsOf demanding).object) body := visit
  have visit := visit.of_annotated
  exact ⟨final, body, distinct, visit, rfl, rfl, visit.requiresListed distinct⟩

def unlistedOnly : String :=
  "\x7b\"type\":\"object\",\"required\":[\"a\"],\"additionalProperties\":\x7b\"type\":\"integer\"\x7d\x7d"

def otherKey : Pair := ⟨['"', 'b', '"'], ['1']⟩

/-- A required key that is not listed can be missing. -/
theorem unlistedOnly_accepted :
    ((Json.read? unlistedOnly).bind (·.get? "required")).map Json.text = some "[\"a\"]".toList ∧
    ((Schema.grammar { anyWhitespace := false } unlistedOnly).1.toOption.any fun grammar =>
      ((Utf8.encode "\x7b\"b\": 1\x7d".toList).foldl grammar.automaton.step
        grammar.automaton.initial).accepting) = true ∧
    IsObject "\x7b\"b\": 1\x7d".toList [otherKey] ∧ ∀ m ∈ [otherKey], m.name? ≠ some "a" := by
  have key : otherKey.key ∈ JsonSyntax.string := Json.quote_mem_string "b"
  have one : otherKey.value ∈ JsonSyntax.integer :=
    ⟨[], .inl rfl, ['1'], JsonSyntax.cons_mem_whole (by decide) (List.forall_mem_nil _), rfl⟩
  have colon : [':', ' '] ∈ JsonSyntax.colon isSpace :=
    JsonSyntax.surrounded_mem ':' (List.forall_mem_nil _) (by simp [isSpace])
  have pair : otherKey.key ++ [':', ' '] ++ otherKey.value ∈ otherKey.texts :=
    Language.append_mem_mul (Language.append_mem_mul rfl colon) rfl
  have opening : ['\x7b'] ++ [] ∈ {['\x7b']} * JsonSyntax.blanks isSpace :=
    Language.append_mem_mul rfl (Language.nil_mem_kstar _)
  have closing : [] ++ ['\x7d'] ∈ JsonSyntax.behind [] := Language.append_mem_mul (Language.nil_mem_kstar _) rfl
  refine ⟨by decide +kernel, by decide +kernel, ⟨List.forall_mem_singleton.mpr ⟨key, ?_⟩, ?_⟩, List.forall_mem_singleton.mpr ?_⟩
  · exact .scalar (.inl (.inl (.inr (CommonRules.integer_le_number one))))
  · exact Language.append_mem_mul (Language.append_mem_mul opening pair) closing
  · have named : otherKey.name? = some "b" := Json.name?_of_key rfl
    rw [named]
    decide

end

end Conversion

end GuidedDecoding
