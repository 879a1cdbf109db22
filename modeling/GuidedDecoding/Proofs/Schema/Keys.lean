import Mathlib
import GuidedDecoding.Proofs.Json.Members
import GuidedDecoding.Proofs.Schema.JsonValues
import GuidedDecoding.Proofs.Schema.Members

open scoped Computability

namespace GuidedDecoding

open Fragment (Sequence denotesSequence)
open JsonSyntax (isSpace Pair IsObject)

namespace Layout

section

variable (layout : Layout) (rules : String → Language Char)

def objectWith : List Pair → Language Char
  | [] => layout.bare rules '\x7b' '\x7d'
  | m :: rest => layout.enclosed rules '\x7b' '\x7d'
      (layout.joined rules ((m :: rest).map fun m => layout.pairs rules {m.key} {m.value}))

end

variable {layout : Layout} {rules : String → Language Char}

def IsOf (m : Pair) (kind : Language Char × Language Char) : Prop := m.key ∈ kind.1 ∧ m.value ∈ kind.2

theorem exists_pair {kind : Language Char × Language Char} {text : List Char} (among : text ∈ layout.pairs rules kind.1 kind.2) :
    ∃ m, IsOf m kind ∧ text ∈ layout.pairs rules {m.key} {m.value} := by
  obtain ⟨_, ⟨key, named, gap, separates, rfl⟩, value, inside, rfl⟩ := among
  exact ⟨⟨key, value⟩, ⟨named, inside⟩, _, ⟨key, rfl, gap, separates, rfl⟩, value, rfl, rfl⟩

theorem exists_following {kinds : List (Language Char × Language Char)} {text : List Char}
    (among : text ∈ layout.following rules (kinds.map fun kind => layout.pairs rules kind.1 kind.2)) :
    ∃ members, List.Forall₂ IsOf members kinds ∧
      text ∈ layout.following rules (members.map fun m => layout.pairs rules {m.key} {m.value}) := by
  induction kinds generalizing text with
  | nil => exact ⟨[], .nil, among⟩
  | cons kind kinds ih =>
    obtain ⟨_, ⟨gap, separates, one, first, rfl⟩, rest, others, rfl⟩ := among
    obtain ⟨m, isOf, single⟩ := exists_pair first
    obtain ⟨members, all, later⟩ := ih others
    exact ⟨m :: members, .cons isOf all, _, ⟨gap, separates, one, single, rfl⟩, rest, later, rfl⟩

theorem exists_members {kinds : List (Language Char × Language Char)} {text : List Char} (some : kinds ≠ [])
    (among : text ∈ layout.enclosed rules '\x7b' '\x7d'
      (layout.joined rules (kinds.map fun kind => layout.pairs rules kind.1 kind.2))) :
    ∃ members, List.Forall₂ IsOf members kinds ∧ text ∈ layout.objectWith rules members := by
  obtain ⟨kind, kinds, rfl⟩ := List.exists_cons_of_ne_nil some
  obtain ⟨_, ⟨_, ⟨_, opening, inside, list, rfl⟩, closing, after, rfl⟩, _, rfl, rfl⟩ := among
  rw [List.map_cons, joined_cons] at list
  obtain ⟨one, first, rest, others, rfl⟩ := list
  obtain ⟨m, isOf, single⟩ := exists_pair first
  obtain ⟨members, all, later⟩ := exists_following others
  refine ⟨m :: members, .cons isOf all, _, ⟨_, ⟨_, opening, one ++ rest, ?_, rfl⟩, closing, after, rfl⟩, _, rfl, rfl⟩
  rw [List.map_cons, joined_cons]
  exact ⟨one, single, rest, later, rfl⟩

section

variable (proper : layout.Proper)
include proper

theorem pairs_le_texts (m : Pair) : layout.pairs rules {m.key} {m.value} ≤ m.texts :=
  mul_le_mul' (mul_le_mul' le_rfl (Promises.denotesSequence_le proper.keyValue rules)) le_rfl

theorem following_le_behind (members : List Pair) :
    layout.following rules (members.map fun m => layout.pairs rules {m.key} {m.value}) *
      layout.closing.denotes rules * {['\x7d']} ≤ JsonSyntax.behind members := by
  induction members with
  | nil =>
    have closing := Promises.denotesSequence_le proper.closing rules
    rw [Fragment.denotesSequence_singleton] at closing
    rw [List.map_nil, following_nil, one_mul]
    exact mul_le_mul' closing le_rfl
  | cons m members ih =>
    rw [List.map_cons, following_cons, mul_assoc, mul_assoc, ← mul_assoc (layout.following rules _)]
    exact mul_le_mul' (mul_le_mul' (Promises.denotesSequence_le proper.between rules) (pairs_le_texts proper m)) ih

theorem objectWith_le (members : List Pair) : layout.objectWith rules members ≤ JsonSyntax.objectOf members := by
  cases members with
  | nil =>
    have inEmpty := Promises.denotesSequence_le proper.inEmpty rules
    rw [Fragment.denotesSequence_singleton] at inEmpty
    exact mul_le_mul' (mul_le_mul' le_rfl inEmpty) le_rfl
  | cons m members =>
    have opening := Promises.denotesSequence_le proper.opening rules
    rw [Fragment.denotesSequence_singleton] at opening
    rw [objectWith, enclosed, List.map_cons, joined_cons, ← mul_assoc ({['\x7b']} * layout.opening.denotes rules), mul_assoc, mul_assoc,
      ← mul_assoc (layout.following rules _)]
    exact mul_le_mul' (mul_le_mul' (mul_le_mul' le_rfl opening) (pairs_le_texts proper m)) (following_le_behind proper members)

end

end Layout

namespace Conversion

section

variable (settings : SchemaSettings) (final : State) (depth : Nat) (properties : List (String × Bool × Schema))
  (extra : Extra Schema)

/-- All members are listed ones. None of them comes twice, and each has a value of its own schema. -/
structure KeepsKeys (members : List Pair) : Prop where
  listed : ∀ m ∈ members, ∃ p ∈ properties, m.key = Json.quote p.1
  distinct : (members.map Pair.name?).Nodup
  own : ∀ m ∈ members, ∀ p ∈ properties, m.name? = some p.1 → m.value ∈ final.valueTexts settings (depth + 1) p.2.2

/-- Members that need not be listed come last, if there can be any. Their keys may be any strings. -/
def ListedFirst (members : List Pair) : Prop :=
  ∃ listed further, members = listed ++ further ∧ KeepsKeys settings final depth properties listed ∧
    ∀ m ∈ further, m.key ∈ JsonSyntax.string ∧ ∃ texts ∈ final.extraTexts settings (depth + 1) extra, m.value ∈ texts

/-- The objects that a body matches have certain members. If the separators are those of JSON, there is no other way
to read them. -/
structure SeparatesKeys (body : Sequence) : Prop where
  members : ∀ text ∈ denotesSequence (final.texts settings) body, ∃ members,
    text ∈ (settings.layout depth).objectWith (final.texts settings) members ∧
    ListedFirst settings final depth properties extra members ∧
    (final.extraTexts settings (depth + 1) extra = none → KeepsKeys settings final depth properties members) ∧
    (settings.Surrounded → ∀ others, IsObject text others ↔ others = members)
  accepted : ∀ grammar, final.Compiles settings body grammar → ∀ w : List UInt8,
    (w.foldl grammar.automaton.step grammar.automaton.initial).accepting = true ↔
      w ∈ encoded (denotesSequence (final.texts settings) body)

end

section

variable {settings : SchemaSettings} {json : Json} {final : State} {depth : Nat}
  {properties : List (String × Bool × Schema)} {extra : Extra Schema} {body : Sequence}

def listedKind (settings : SchemaSettings) (final : State) (depth : Nat) (p : String × Bool × Schema) :
    Language Char × Language Char :=
  ({Json.quote p.1}, final.valueTexts settings (depth + 1) p.2.2)

theorem keepsKeys_of_isOf (keys : (properties.map Prod.fst).Nodup) {chosen : List (String × Bool × Schema)}
    (sublist : chosen.Sublist properties) {members : List Pair}
    (isOf : List.Forall₂ (fun m p => Layout.IsOf m (listedKind settings final depth p)) members chosen) :
    KeepsKeys settings final depth properties members := by
  have partner (m : Pair) (member : m ∈ members) : ∃ p ∈ properties, Layout.IsOf m (listedKind settings final depth p) := by
    obtain ⟨p, among, kind⟩ := (exists_partner isOf).1 m member
    exact ⟨p, sublist.subset among, kind⟩
  have names : members.map Pair.name? = chosen.map (some ∘ Prod.fst) := by
    rw [← List.forall₂_eq_eq_eq, List.forall₂_map_left_iff, List.forall₂_map_right_iff]
    exact isOf.imp fun m p kind => Json.name?_of_key kind.1
  refine ⟨fun m member => ?_, ?_, fun m member q listed named => ?_⟩
  · obtain ⟨p, listed, key, _⟩ := partner m member
    exact ⟨p, listed, key⟩
  · rw [names, ← List.map_map]
    exact ((sublist.map Prod.fst).nodup keys).map (Option.some_injective _)
  · obtain ⟨p, among, isOf⟩ := partner m member
    have same : p.1 = q.1 := Option.some.inj ((Json.name?_of_key isOf.1).symm.trans named)
    obtain rfl := List.inj_on_of_nodup_map keys among listed same
    exact isOf.2

def memberKinds (settings : SchemaSettings) (final : State) (depth : Nat) (extra : Extra Schema)
    (chosen : List (String × Bool × Schema)) (more : Nat) : List (Language Char × Language Char) :=
  chosen.map (listedKind settings final depth) ++
    List.replicate more (JsonSyntax.string, (final.extraTexts settings (depth + 1) extra).getD 0)

theorem map_pairs_memberKinds (chosen : List (String × Bool × Schema)) (more : Nat) :
    (memberKinds settings final depth extra chosen more).map
        (fun kind => (settings.layout depth).pairs (final.texts settings) kind.1 kind.2) =
      chosen.map (listedPair settings final depth) ++ List.replicate more (furtherPair settings final depth extra) := by
  rw [memberKinds, List.map_append, List.map_map, List.map_replicate]
  rfl

theorem forall₂_append_right {α β : Type} {r : α → β → Prop} {l : List α} {front back : List β}
    (all : List.Forall₂ r l (front ++ back)) :
    ∃ first rest, l = first ++ rest ∧ List.Forall₂ r first front ∧ List.Forall₂ r rest back :=
  ⟨_, _, (List.take_append_drop front.length l).symm, List.forall₂_take_append l _ _ all,
    List.forall₂_drop_append l _ _ all⟩

theorem listedFirst_of_isOf (keys : (properties.map Prod.fst).Nodup) {chosen : List (String × Bool × Schema)}
    (sublist : chosen.Sublist properties) {more : Nat} {members : List Pair}
    (isOf : List.Forall₂ Layout.IsOf members (memberKinds settings final depth extra chosen more)) :
    ListedFirst settings final depth properties extra members := by
  obtain ⟨listed, further, rfl, front, back⟩ := forall₂_append_right isOf
  rw [List.forall₂_map_right_iff] at front
  refine ⟨listed, further, rfl, keepsKeys_of_isOf keys sublist front, fun m member => ?_⟩
  obtain ⟨kind, among, key, value⟩ := (exists_partner back).1 m member
  obtain rfl := List.eq_of_mem_replicate among
  refine ⟨key, ?_⟩
  cases given : final.extraTexts settings (depth + 1) extra with
  | none => simp [given] at value
  | some texts => simpa [given] using value

theorem Visit.exists_members (visit : Visit settings json final depth (.object properties extra) body)
    (keys : (properties.map Prod.fst).Nodup) {text : List Char} (matched : text ∈ denotesSequence (final.texts settings) body) :
    ∃ members, text ∈ (settings.layout depth).objectWith (final.texts settings) members ∧
      ListedFirst settings final depth properties extra members := by
  rcases (visit.mem_iff text).mp matched with ⟨chosen, more, sublist, _, _, some, inside⟩ | ⟨_, bare⟩
  · have inhabited : memberKinds settings final depth extra chosen more ≠ [] := by
      rcases some with some | some <;> simp [memberKinds, some]
    rw [← map_pairs_memberKinds] at inside
    obtain ⟨members, isOf, written⟩ := Layout.exists_members inhabited inside
    exact ⟨members, written, listedFirst_of_isOf keys sublist isOf⟩
  · exact ⟨[], bare, [], [], rfl, ⟨List.forall_mem_nil _, List.nodup_nil, List.forall_mem_nil _⟩, List.forall_mem_nil _⟩

theorem ListedFirst.isObject (surrounded : settings.Surrounded)
    (visit : Visit settings json final depth (.object properties extra) body) {members : List Pair}
    (first : ListedFirst settings final depth properties extra members) {text : List Char}
    (written : text ∈ (settings.layout depth).objectWith (final.texts settings) members) : IsObject text members := by
  obtain ⟨own, extras⟩ := visit.members_le (visit.complete.any_le_json surrounded) (visit.complete.body_le_json surrounded)
  obtain ⟨listed, further, rfl, kept, others⟩ := first
  refine ⟨List.forall_mem_append.mpr ⟨fun m member => ?_, fun m member => ?_⟩,
    Layout.objectWith_le (settings.proper_layout surrounded depth) _ written⟩
  · obtain ⟨p, among, key⟩ := kept.listed m member
    exact ⟨key ▸ Json.quote_mem_string p.1, own p among (kept.own m member p among (Json.name?_of_key key))⟩
  · obtain ⟨key, texts, given, value⟩ := others m member
    exact ⟨key, extras texts given value⟩

theorem Visit.separatesKeys {source : String} (read : Json.read? source = some json)
    (visit : Visit settings json final depth (.object properties extra) body) :
    SeparatesKeys settings final depth properties extra body := by
  have keys : (properties.map Prod.fst).Nodup := Schema.distinct_of_uses visit.uses (Json.distinct_of_read? read)
  refine ⟨fun text matched => ?_, fun grammar compiles w => visit.complete.accepting_iff compiles w⟩
  obtain ⟨members, written, first⟩ := visit.exists_members keys matched
  refine ⟨members, written, first, fun closed => ?_, fun surrounded others => ?_⟩
  · obtain ⟨listed, further, rfl, kept, others⟩ := first
    have none : further = [] := List.eq_nil_iff_forall_not_mem.mpr fun m member => by
      obtain ⟨_, _, given, _⟩ := others m member
      rw [closed] at given
      cases given
    rwa [none, List.append_nil]
  · have object := first.isObject surrounded visit written
    exact ⟨fun also => also.unique object, fun same => same ▸ object⟩

def onlyNumber : String := "\x7b\"properties\":\x7b\"n\":\x7b\"type\":\"integer\"\x7d\x7d\x7d"

def listedKeys? : Schema → Option (List String)
  | .annotated _ (.object properties _) => some (properties.map Prod.fst)
  | _ => none

theorem separatesKeys_onlyNumber : ∃ json final properties extra body, Json.read? onlyNumber = some json ∧
    properties.map Prod.fst = ["n"] ∧ Visit {} json final 0 (.object properties extra) body ∧
    SeparatesKeys {} final 0 properties extra body := by
  have converts : ((Json.read? onlyNumber).any fun json => ((Conversion.ofJson {} json).run.run {}).1.isOk) = true ∧
      ((Json.read? onlyNumber).bind fun json => listedKeys? (Schema.ofJson json)) = some ["n"] := by decide +kernel
  obtain ⟨converts, listed⟩ := converts
  cases read : Json.read? onlyNumber with
  | none =>
    rw [read] at converts
    cases converts
  | some json =>
    rw [read] at converts listed
    obtain ⟨final, body, visit⟩ := Visit.exists_of_isOk converts
    rw [Option.bind_some] at listed
    generalize Schema.ofJson json = schema at visit listed
    unfold listedKeys? at listed
    split at listed
    next properties extra =>
      have visit := visit.of_annotated
      exact ⟨json, final, properties, extra, body, rfl, Option.some.inj listed, visit, visit.separatesKeys read⟩
    next => cases listed

def extensible : String :=
  "\x7b\"properties\":\x7b\"a\":\x7b\"type\":\"integer\"\x7d\x7d,\"additionalProperties\":true\x7d"

def repeated : List Pair := [⟨['"', 'a', '"'], ['1']⟩, ⟨['"', 'a', '"'], ['"', 'x', '"']⟩]

/-- A further member may repeat the key of a listed one, with a value that is none of its own. -/
theorem repeated_accepted :
    ((Schema.grammar { anyWhitespace := false } extensible).1.toOption.any fun grammar =>
      ((Utf8.encode "\x7b\"a\": 1, \"a\": \"x\"\x7d".toList).foldl grammar.automaton.step
        grammar.automaton.initial).accepting) = true ∧
    IsObject "\x7b\"a\": 1, \"a\": \"x\"\x7d".toList repeated ∧ ¬(repeated.map Pair.name?).Nodup ∧
    ∃ m ∈ repeated, m.name? = some "a" ∧ m.value ∉ Schema.basicTexts .integer := by
  have named (value : List Char) : (Pair.mk ['"', 'a', '"'] value).name? = some "a" := Json.name?_of_key rfl
  have key : ['"', 'a', '"'] ∈ JsonSyntax.string := Json.quote_mem_string "a"
  have space : ∀ c ∈ [' '], isSpace c := by simp [isSpace]
  have comma : [',', ' '] ∈ JsonSyntax.comma isSpace := JsonSyntax.surrounded_mem ',' (List.forall_mem_nil _) space
  have colon : [':', ' '] ∈ JsonSyntax.colon isSpace := JsonSyntax.surrounded_mem ':' (List.forall_mem_nil _) space
  have pair (m : Pair) : m.key ++ [':', ' '] ++ m.value ∈ m.texts :=
    Language.append_mem_mul (Language.append_mem_mul rfl colon) rfl
  have one : ['1'] ∈ JsonSyntax.integer :=
    ⟨[], .inl rfl, ['1'], JsonSyntax.cons_mem_whole (by decide) (List.forall_mem_nil _), rfl⟩
  have text : ['"', 'x', '"'] ∈ JsonSyntax.string := Json.quote_mem_string "x"
  refine ⟨by decide +kernel, ⟨?_, ?_⟩, ?_, ?_⟩
  · refine List.forall_mem_cons.mpr ⟨⟨key, .scalar (.inl (.inl (.inr (CommonRules.integer_le_number one))))⟩, List.forall_mem_singleton.mpr ?_⟩
    exact ⟨key, JsonSyntax.string_le_value text⟩
  · have closing : [] ++ ['\x7d'] ∈ JsonSyntax.behind [] := Language.append_mem_mul (Language.nil_mem_kstar _) rfl
    have opening : ['\x7b'] ++ [] ∈ {['\x7b']} * JsonSyntax.blanks isSpace :=
      Language.append_mem_mul rfl (Language.nil_mem_kstar _)
    have object := Language.append_mem_mul (Language.append_mem_mul opening (pair ⟨['"', 'a', '"'], ['1']⟩))
      (Language.append_mem_mul (Language.append_mem_mul comma (pair ⟨['"', 'a', '"'], ['"', 'x', '"']⟩)) closing)
    have written : "\x7b\"a\": 1, \"a\": \"x\"\x7d".toList = ['\x7b'] ++ [] ++ (['"', 'a', '"'] ++ [':', ' '] ++ ['1']) ++
        ([',', ' '] ++ (['"', 'a', '"'] ++ [':', ' '] ++ ['"', 'x', '"']) ++ ([] ++ ['\x7d'])) := rfl
    rw [written]
    exact object
  · simp [repeated, named]
  · refine ⟨_, List.mem_cons_of_mem _ (List.mem_singleton_self _), named _, ?_⟩
    rintro ⟨_, rfl | rfl, _, rfl | ⟨_, ⟨c, digit, rfl⟩, rest, _, rfl⟩, same⟩
    · simp at same
    · obtain ⟨rfl, _⟩ := List.cons.inj same
      exact absurd digit (by decide)
    · simp at same
    · simp at same

end

end Conversion

end GuidedDecoding
