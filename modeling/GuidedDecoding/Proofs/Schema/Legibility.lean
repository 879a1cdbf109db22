import Mathlib
import GuidedDecoding.Proofs.Schema.CommonRules
import GuidedDecoding.Proofs.Schema.Rendering

namespace GuidedDecoding

open Fragment (Sequence)

namespace Fragment

@[simp] theorem isRepeated_ofText (text : List Char) : (ofText text).isRepeated = false := rfl

@[simp] theorem isRepeated_charClass (inside : String) : (charClass inside).isRepeated = false := rfl

@[simp] theorem isRepeated_rule (name : String) : (rule name).isRepeated = false := rfl

@[simp] theorem isRepeated_group (alternatives : List Sequence) : (group alternatives).isRepeated = false := rfl

def Readable (f : Fragment) : Prop := f.Spelled ∧ f.Legible

def AllReadable (pieces : Sequence) : Prop := pieces ≠ [] ∧ ∀ f ∈ pieces, f.Readable

theorem readable_ofText (text : List Char) : (ofText text).Readable := ⟨spelled_ofText text, legible_ofText text⟩

theorem readable_empty : empty.Readable := readable_ofText []

theorem readable_rule {name : String} (isName : Token.IsName name) : (rule name).Readable :=
  ⟨spelled_rule.mpr isName, legible_rule name⟩

theorem readable_group {alternatives : List Sequence} (some : alternatives ≠ [])
    (each : ∀ pieces ∈ alternatives, AllReadable pieces) : (group alternatives).Readable :=
  ⟨spelled_group.mpr fun pieces member f inside => ((each pieces member).2 f inside).1,
    legible_group.mpr ⟨some, fun pieces member =>
      ⟨(each pieces member).1, fun f inside => ((each pieces member).2 f inside).2⟩⟩⟩

theorem readable_repeated {f : Fragment} {min : Nat} {max : Option Nat} (readable : f.Readable)
    (bare : f.isRepeated = false) (bounds : Quantifiable min max) : (repeated f min max).Readable :=
  ⟨spelled_repeated.mpr readable.1, legible_repeated.mpr ⟨readable.2, bare, bounds⟩⟩

theorem readable_many {f : Fragment} (readable : f.Readable) (bare : f.isRepeated = false) : (many f).Readable :=
  readable_repeated readable bare (by decide)

theorem readable_optional {f : Fragment} (readable : f.Readable) (bare : f.isRepeated = false) :
    (optional f).Readable :=
  readable_repeated readable bare (by decide)

theorem readable_bounded {f : Fragment} {min : Nat} {max : Option Nat} (readable : f.Readable)
    (bare : f.isRepeated = false) (bounds : Quantifiable min max) : (bounded f min max).Readable := by
  unfold bounded
  split_ifs
  · exact readable_empty
  · exact readable_repeated readable bare bounds

theorem allReadable_singleton {f : Fragment} (readable : f.Readable) : AllReadable [f] :=
  ⟨by simp, List.forall_mem_singleton.mpr readable⟩

theorem AllReadable.append {pieces others : Sequence} (first : AllReadable pieces)
    (second : ∀ f ∈ others, f.Readable) : AllReadable (pieces ++ others) :=
  ⟨by simp [first.1], List.forall_mem_append.mpr ⟨first.2, second⟩⟩

end Fragment

open Fragment (AllReadable readable_ofText readable_empty readable_rule readable_group readable_many readable_optional
  readable_bounded allReadable_singleton)

structure FragmentRule.Readable (rule : FragmentRule) : Prop where
  spelled : rule.Spelled
  legible : rule.Legible

theorem FragmentRule.readable_of_all {rule : FragmentRule} (isName : Token.IsName rule.name)
    (some : rule.alternatives ≠ []) (each : ∀ pieces ∈ rule.alternatives, AllReadable pieces) : rule.Readable where
  spelled := ⟨isName, fun pieces among f member => ((each pieces among).2 f member).1⟩
  legible := ⟨some, fun pieces among => (each pieces among).1, fun pieces among f member => ((each pieces among).2 f member).2⟩

theorem Quantifiable.less {min : Nat} {max : Option Nat} (bounds : Quantifiable min max) (count : Nat) :
    Quantifiable (min - count) (max.map (· - count)) := by
  refine ⟨(Nat.sub_le min count).trans bounds.1, fun bound given => ?_⟩
  obtain ⟨most, allowed, rfl⟩ := Option.map_eq_some_iff.mp given
  obtain ⟨le, within⟩ := bounds.2 most allowed
  exact ⟨Nat.sub_le_sub_right le count, (Nat.sub_le most count).trans within⟩

namespace Layout

structure Readable (layout : Layout) : Prop where
  opening : layout.opening.Readable
  between : ∀ f ∈ layout.between, f.Readable
  keyValue : ∀ f ∈ layout.keyValue, f.Readable
  closing : layout.closing.Readable
  inEmpty : layout.inEmpty.Readable

theorem readable_blanks : blanks.Readable :=
  readable_many ⟨Fragment.isClass_blank.spelled, Fragment.legible_charClass _⟩ rfl

theorem readable_spaced (between keyValue : List Char) : (spaced between keyValue).Readable := by
  have around (text : List Char) : ∀ f ∈ [blanks, Fragment.ofText (Text.trim text), blanks], f.Readable := by
    simp only [List.forall_mem_cons]
    exact ⟨readable_blanks, readable_ofText _, readable_blanks, by simp⟩
  exact ⟨readable_blanks, around between, around keyValue, readable_blanks, readable_blanks⟩

theorem readable_oneLine (between keyValue : List Char) : (oneLine between keyValue).Readable :=
  have piece (text : List Char) : ∀ f ∈ [Fragment.ofText text], f.Readable :=
    List.forall_mem_singleton.mpr (readable_ofText text)
  ⟨readable_empty, piece between, piece keyValue, readable_empty, readable_empty⟩

theorem readable_lines (between keyValue : List Char) (indent depth : Nat) :
    (lines between keyValue indent depth).Readable :=
  have piece (text : List Char) : ∀ f ∈ [Fragment.ofText text], f.Readable :=
    List.forall_mem_singleton.mpr (readable_ofText text)
  ⟨readable_ofText _, piece _, piece keyValue, readable_ofText _, readable_empty⟩

end Layout

namespace SchemaSettings

variable (settings : SchemaSettings)

theorem readable_layout (depth : Nat) : (settings.layout depth).Readable := by
  unfold layout
  dsimp only
  split_ifs
  · exact Layout.readable_spaced _ _
  · split
    · exact Layout.readable_lines _ _ _ _
    · exact Layout.readable_oneLine _ _

theorem readable_inlineLayout : settings.inlineLayout.Readable := by
  unfold inlineLayout
  dsimp only
  split_ifs
  · exact Layout.readable_spaced _ _
  · exact Layout.readable_oneLine _ _

theorem readable_orEmpty {nonEmpty empty : Sequence} (filled : AllReadable nonEmpty) (bare : AllReadable empty) :
    AllReadable (settings.orEmpty nonEmpty empty) := by
  unfold orEmpty
  split_ifs
  · exact filled
  · exact allReadable_singleton (readable_group (by simp) (by simpa using ⟨filled, bare⟩))

end SchemaSettings

section

variable {layout : Layout} (laid : layout.Readable)
include laid

namespace Layout

theorem readable_enclosed (left right : Char) {inside : Sequence} (each : ∀ f ∈ inside, f.Readable) :
    AllReadable ([.ofText [left]] ++ layout.opening :: inside ++ [layout.closing, .ofText [right]]) := by
  have start := (allReadable_singleton (readable_ofText [left])).append (List.forall_mem_cons.mpr ⟨laid.opening, each⟩)
  exact start.append (List.forall_mem_cons.mpr ⟨laid.closing, (allReadable_singleton (readable_ofText [right])).2⟩)

theorem readable_bare (left right : Char) : AllReadable [.ofText [left], layout.inEmpty, .ofText [right]] :=
  ⟨by simp, List.forall_mem_cons.mpr ⟨readable_ofText [left],
    List.forall_mem_cons.mpr ⟨laid.inEmpty, (allReadable_singleton (readable_ofText [right])).2⟩⟩⟩

theorem readable_pair {key value : Fragment} (named : key.Readable) (valued : value.Readable) :
    AllReadable (layout.pair key value) :=
  (allReadable_singleton named).append
    (List.forall_mem_append.mpr ⟨laid.keyValue, List.forall_mem_singleton.mpr valued⟩)

theorem readable_another {item : Sequence} (each : AllReadable item) : (layout.another item).Readable := by
  refine readable_group (by simp) (List.forall_mem_singleton.mpr ⟨by simp [each.1], ?_⟩)
  exact List.forall_mem_append.mpr ⟨laid.between, each.2⟩

theorem readable_separated {items : List Fragment} (each : ∀ f ∈ items, f.Readable) :
    ∀ f ∈ layout.separated items, f.Readable := by
  induction items with
  | nil => exact List.forall_mem_nil _
  | cons item items ih =>
    have first := each item (by simp)
    have others := ih fun f member => each f (by simp [member])
    cases items with
    | nil => exact List.forall_mem_singleton.mpr first
    | cons next items =>
      rw [separated]
      · exact List.forall_mem_cons.mpr ⟨first, List.forall_mem_append.mpr ⟨laid.between, others⟩⟩
      · simp

end Layout

namespace Schema

open Layout (readable_enclosed readable_bare readable_another readable_separated)

theorem readable_moreItems {item : Fragment} {count : CountBounds} (one : item.Readable)
    (bounds : Quantifiable count.min count.max) (fixed : Nat) : (moreItems layout item count fixed).Readable :=
  readable_bounded (readable_another laid (allReadable_singleton one)) rfl (bounds.less fixed)

theorem ArrayForm.readable {settings : SchemaSettings} {leading : List Fragment} {extra : Option Fragment}
    {count : CountBounds} {body : Sequence} (form : ArrayForm settings layout leading extra count body)
    (bounds : Quantifiable count.min count.max) (leads : ∀ f ∈ leading, f.Readable)
    (extras : ∀ f ∈ extra, f.Readable) : AllReadable body := by
  have empty := readable_bare laid '[' ']'
  have array {inside : Sequence} (each : ∀ f ∈ inside, f.Readable) := readable_enclosed laid '[' ']' each
  have fixed := readable_separated laid leads
  have more {item : Fragment} (one : item.Readable) := readable_moreItems laid one bounds
  cases form with
  | bare => exact empty
  | fixed => exact array fixed
  | extended _ allowed =>
    exact array (List.forall_mem_append.mpr ⟨fixed, List.forall_mem_singleton.mpr (more (extras _ allowed) _)⟩)
  | unlisted _ allowed =>
    have one := extras _ allowed
    exact array ((allReadable_singleton one).append (List.forall_mem_singleton.mpr (more one 1))).2
  | optional _ allowed =>
    have one := extras _ allowed
    exact settings.readable_orEmpty
      (array ((allReadable_singleton one).append (List.forall_mem_singleton.mpr (more one 1))).2) empty

theorem readable_membersAfter {members : List Member} (each : ∀ m ∈ members, AllReadable m.pair) :
    ∀ f ∈ membersAfter layout members, f.Readable := by
  induction members with
  | nil => exact List.forall_mem_nil _
  | cons m members ih =>
    have one := each m (by simp)
    rw [membersAfter]
    refine List.forall_mem_append.mpr ⟨?_, ih fun m member => each m (by simp [member])⟩
    split_ifs
    · exact List.forall_mem_append.mpr ⟨laid.between, one.2⟩
    · exact List.forall_mem_singleton.mpr (readable_optional (readable_another laid one) rfl)

theorem readable_membersUntil {members : List Member} (each : ∀ m ∈ members, AllReadable m.pair) :
    ∀ f ∈ membersUntil layout members, f.Readable := by
  induction members with
  | nil => exact List.forall_mem_nil _
  | cons m members ih =>
    have one := each m (by simp)
    have rest : ∀ m ∈ members, AllReadable m.pair := fun m member => each m (by simp [member])
    rw [membersUntil]
    split_ifs
    · exact List.forall_mem_append.mpr ⟨one.2, readable_membersAfter laid rest⟩
    · have group := readable_group (by simp) (List.forall_mem_singleton.mpr (one.append laid.between))
      exact List.forall_mem_cons.mpr ⟨readable_optional group rfl, ih rest⟩

end Schema

namespace Conversion

theorem readable_extraPair {value : Fragment} (valued : value.Readable) : AllReadable (extraPair layout value) :=
  Layout.readable_pair laid (readable_rule (by decide)) valued

theorem readable_morePairs {extra : Option Fragment} (extras : ∀ f ∈ extra, f.Readable) :
    ∀ f ∈ morePairs layout extra, f.Readable := by
  intro f given
  obtain ⟨value, allowed, rfl⟩ := Option.map_eq_some_iff.mp given
  exact readable_many (Layout.readable_another laid (readable_extraPair laid (extras value allowed))) rfl

theorem readable_lastPairs {extra : Option Fragment} (extras : ∀ f ∈ extra, f.Readable) :
    ((morePairs layout extra).getD .empty).Readable := by
  have more := readable_morePairs laid extras
  cases given : morePairs layout extra with
  | none => exact readable_empty
  | some f => exact more f given

end Conversion

end

namespace CommonRules

theorem legible_fixed : ∀ rule ∈ fixed, rule.Legible := by
  have all : ∀ rule ∈ fixed,
      rule.alternatives ≠ [] ∧ ∀ pieces ∈ rule.alternatives, pieces ≠ [] ∧ ∀ f ∈ pieces, f.Legible := by
    simp [fixed, quotationMark, digits, someDigits, whole, Fragment.many, Fragment.optional, Quantifiable,
      maxRepetition]
  exact fun rule member => ⟨(all rule member).1, fun pieces among => ((all rule member).2 pieces among).1,
    fun pieces among => ((all rule member).2 pieces among).2⟩

theorem spelled_fixed : ∀ rule ∈ fixed, rule.Spelled := by
  have names : ∀ rule ∈ fixed, Token.IsName rule.name := by
    simp only [fixed, List.forall_mem_cons]
    decide
  have pieces : ∀ rule ∈ fixed, ∀ pieces ∈ rule.alternatives, ∀ f ∈ pieces, f.Spelled := by
    simp [fixed, quotationMark, digits, someDigits, whole, Fragment.isClass_escape.spelled, Fragment.isClass_hexDigit.spelled,
      Fragment.isClass_plain.spelled, Fragment.isClass_leading.spelled, Fragment.isClass_digit.spelled,
      Fragment.isClass_exponent.spelled, Fragment.isClass_sign.spelled]
    decide
  exact fun rule member => ⟨names rule member, pieces rule member⟩

theorem readable (settings : SchemaSettings) : ∀ rule ∈ all settings, rule.Readable := by
  have laid := settings.readable_inlineLayout
  have any : (Fragment.rule "basic_any").Readable := readable_rule (by decide)
  have pair := Layout.readable_pair laid (readable_rule (by decide : Token.IsName "basic_string")) any
  have list {pieces : Sequence} (each : AllReadable pieces) :=
    each.append (List.forall_mem_singleton.mpr (readable_many (Layout.readable_another laid each) rfl))
  have items := settings.readable_orEmpty (Layout.readable_enclosed laid '[' ']' (list (allReadable_singleton any)).2)
    (Layout.readable_bare laid '[' ']')
  have members := settings.readable_orEmpty (Layout.readable_enclosed laid '\x7b' '\x7d' (list pair).2)
    (Layout.readable_bare laid '\x7b' '\x7d')
  refine List.forall_mem_append.mpr ⟨fun rule member => ?_, ?_⟩
  · exact ⟨spelled_fixed rule member, legible_fixed rule member⟩
  · simp only [List.forall_mem_cons]
    exact ⟨FragmentRule.readable_of_all (by decide : Token.IsName "basic_array") (by simp [array]) (List.forall_mem_singleton.mpr items),
      FragmentRule.readable_of_all (by decide : Token.IsName "basic_object") (by simp [object]) (List.forall_mem_singleton.mpr members), by simp⟩

end CommonRules

theorem Schema.readable_membersFrom {pairs : List Sequence} {tails : List Fragment} {extra : Option Sequence}
    {last : Fragment} (some : pairs.zip tails ≠ []) (each : ∀ pair ∈ pairs, AllReadable pair)
    (follow : ∀ tail ∈ tails, tail.Readable) (extras : ∀ pair ∈ extra, AllReadable pair) (final : last.Readable) :
    (membersFrom pairs tails extra last).Readable := by
  apply readable_group
  · simp [some]
  · intro pieces member
    rcases List.mem_append.mp member with listed | more
    · obtain ⟨⟨pair, tail⟩, among, rfl⟩ := List.mem_map.mp listed
      obtain ⟨one, next⟩ := List.of_mem_zip among
      exact (each pair one).append (List.forall_mem_singleton.mpr (follow tail next))
    · obtain ⟨pair, given, rfl⟩ := List.mem_map.mp more
      exact (extras pair (by simpa using given)).append (List.forall_mem_singleton.mpr final)

namespace Conversion

structure State.Named (s : State) : Prop where
  rules : ∀ rule ∈ s.rules.toList, Token.IsName rule.name
  references : ∀ target name, s.references.lookup target = some name → Token.IsName name

section

variable {s : State} {layout : Layout}

theorem State.Tails.length_eq {last : Fragment} {pairs : List Sequence} {tails : List Fragment}
    (follow : s.Tails layout last pairs tails) : tails.length = pairs.length := by
  induction follow with
  | none => rfl
  | last => rfl
  | next _ _ ih => simpa using ih

theorem State.Tails.readable (named : s.Named) {last : Fragment} (final : last.Readable) {pairs : List Sequence}
    {tails : List Fragment} (follow : s.Tails layout last pairs tails) : ∀ tail ∈ tails, tail.Readable := by
  induction follow with
  | none => exact List.forall_mem_nil _
  | last => exact List.forall_mem_singleton.mpr final
  | next _ rule ih => exact List.forall_mem_cons.mpr ⟨readable_rule (named.rules _ rule), ih⟩

theorem State.ObjectForm.readable (named : s.Named) (laid : layout.Readable) {settings : SchemaSettings}
    {members : List Schema.Member} {extra : Option Fragment} {body : Sequence}
    (form : s.ObjectForm settings layout members extra body) (each : ∀ m ∈ members, AllReadable m.pair)
    (extras : ∀ f ∈ extra, f.Readable) : AllReadable body := by
  have empty := Layout.readable_bare laid '\x7b' '\x7d'
  have object {inside : Sequence} (each : ∀ f ∈ inside, f.Readable) := Layout.readable_enclosed laid '\x7b' '\x7d' each
  have more : ∀ f ∈ (morePairs layout extra).toList, f.Readable :=
    fun f given => readable_morePairs laid extras f (by simpa using given)
  cases form with
  | anchored => exact object (List.forall_mem_append.mpr ⟨Schema.readable_membersUntil laid each, more⟩)
  | bare => exact empty
  | unlisted _ allowed =>
    have list := (readable_extraPair laid (extras _ allowed)).append more
    exact settings.readable_orEmpty (object list.2) empty
  | @chained tails listed _ follow =>
    have final := readable_lastPairs laid extras
    have some : (members.map Schema.Member.pair).zip tails ≠ [] := by
      have length := List.length_pos_iff.mpr listed
      rw [← List.length_pos_iff, List.length_zip, follow.length_eq, List.length_map]
      omega
    have pairs : ∀ pair ∈ extra.map (extraPair layout), AllReadable pair := fun pair given => by
      obtain ⟨value, allowed, rfl⟩ := Option.map_eq_some_iff.mp given
      exact readable_extraPair laid (extras value allowed)
    have choice := Schema.readable_membersFrom some (List.forall_mem_map.mpr each) (follow.readable named final)
      pairs final
    exact settings.readable_orEmpty (object (List.forall_mem_singleton.mpr choice)) empty

theorem State.Named.isName_reference (named : s.Named) {target name : String}
    (known : s.reference? target = some name) : Token.IsName name := by
  unfold State.reference? at known
  split_ifs at known
  · obtain rfl := Option.some.inj known
    decide
  · exact named.references target name known

theorem State.Names.isName (named : s.Named) {body : Sequence} {name : String} (stands : s.Names body name)
    (spelled : ∀ f ∈ body, f.Spelled) : Token.IsName name := by
  rcases stands with rfl | rule
  · exact Fragment.spelled_rule.mp (spelled _ (by simp))
  · exact named.rules _ rule

end

theorem isName_basicRule (type : BasicType) : Token.IsName (basicRule type) := by
  cases type <;> decide

theorem readable_stringText {count : CountBounds} (bounds : Quantifiable count.min count.max) :
    AllReadable (stringText count) := by
  have quotation : CommonRules.quotationMark.Readable := readable_ofText ['"']
  have characters := readable_bounded (readable_rule (by decide : Token.IsName "basic_char")) rfl bounds
  unfold stringText
  split
  next => exact allReadable_singleton (readable_rule (by decide))
  next =>
    exact (allReadable_singleton quotation).append
      (List.forall_mem_cons.mpr ⟨characters, List.forall_mem_singleton.mpr quotation⟩)

theorem readable_extraPiece (settings : SchemaSettings) {extra : Extra Inner}
    (each : ∀ i ∈ extra.toList, Token.IsName i.name) : ∀ f ∈ extraPiece settings extra, f.Readable := by
  intro f given
  cases extra with
  | forbidden => cases given
  | unspecified =>
    rw [extraPiece] at given
    split_ifs at given
    · cases given
    · obtain rfl := Option.some.inj given
      exact readable_rule (by decide)
  | schema inner =>
    obtain rfl := Option.some.inj given
    exact readable_rule (each inner (by simp [Extra.toList]))

section

variable {settings : SchemaSettings} (resolve : List Char → Option Schema) {s : State}

/-- What a schema is written as. It can be read if the schema uses no empty list of types. -/
structure ReadableBody (schema : Schema) (body : Sequence) : Prop where
  some : body ≠ []
  spelled : ∀ f ∈ body, f.Spelled
  legible : (∀ part, schema.Uses resolve part → part ≠ .types []) → ∀ f ∈ body, f.Legible

theorem Renders.readable (named : s.Named) {depth : Nat} {schema : Schema} {body : Sequence}
    (renders : Renders settings s depth schema body) (fits : ∀ part, schema.Uses resolve part → part.Fits) :
    ReadableBody resolve schema body := by
  have whole {schema : Schema} {body : Sequence} (readable : AllReadable body) : ReadableBody resolve schema body :=
    ⟨readable.1, fun f member => (readable.2 f member).1, fun _ f member => (readable.2 f member).2⟩
  have single {schema : Schema} {f : Fragment} (readable : f.Readable) : ReadableBody resolve schema [f] :=
    whole (allReadable_singleton readable)
  induction renders with
  | anything => exact single (readable_rule (by decide))
  | annotated _ ih =>
    have inside := ih fun part uses => fits part (.head .annotated uses)
    exact ⟨inside.some, inside.spelled, fun typed => inside.legible fun part uses => typed part (.head .annotated uses)⟩
  | reference known => exact single (readable_rule (named.isName_reference known))
  | constant => exact single (readable_ofText _)
  | @enumeration depth values =>
    have some : values ≠ [] := fits _ .refl
    exact single (readable_group (by simpa using some)
      (List.forall_mem_map.mpr fun value _ => allReadable_singleton (readable_ofText _)))
  | @union depth members _ stands ih =>
    have some : members.map Inner.schema ≠ [] := fits _ .refl
    refine single (readable_group (by simpa using some) (List.forall_mem_map.mpr fun m member => ?_))
    have inside := ih m member fun part uses => fits part (.head (.union (List.mem_map_of_mem member)) uses)
    exact allReadable_singleton (readable_rule ((stands m member).isName named inside.spelled))
  | @types depth alternatives _ ih =>
    have part (a : Schema × Sequence) (member : a ∈ alternatives) :
        Schema.Part resolve (.types (alternatives.map Prod.fst)) a.1 := .types (List.mem_map_of_mem member)
    have inside (a : Schema × Sequence) (member : a ∈ alternatives) :=
      ih a member fun _ uses => fits _ (.head (part a member) uses)
    refine ⟨by simp, List.forall_mem_singleton.mpr (Fragment.spelled_group.mpr
      (List.forall_mem_map.mpr fun a member => (inside a member).spelled)), fun typed => ?_⟩
    have some : alternatives ≠ [] := by
      rintro rfl
      exact typed _ .refl rfl
    refine List.forall_mem_singleton.mpr (Fragment.legible_group.mpr ⟨by simpa using some, ?_⟩)
    exact List.forall_mem_map.mpr fun a member => ⟨(inside a member).some,
      (inside a member).legible fun _ uses => typed _ (.head (part a member) uses)⟩
  | basic => exact single (readable_rule (isName_basicRule _))
  | text => exact whole (readable_stringText (fits _ .refl))
  | @array depth leading extra count body _ stands written ih =>
    have isName (i : Inner) (member : i ∈ leading ++ extra.toList) : Token.IsName i.name :=
      (stands i member).isName named
        (ih i member fun _ uses => fits _ (.head (part_array_iff.mpr ⟨i, member, rfl⟩) uses)).spelled
    have form := (Schema.arrayForm_of_arrayText written).2.2
    exact whole (form.readable (settings.readable_layout depth) (fits _ .refl)
      (List.forall_mem_map.mpr fun i member => readable_rule (isName i (by simp [member])))
      (readable_extraPiece settings fun i member => isName i (by simp [member])))
  | @object depth properties extra body _ stands written ih =>
    have isName (i : Inner) (member : i ∈ properties.map (·.2.2) ++ extra.toList) : Token.IsName i.name :=
      (stands i member).isName named
        (ih i member fun _ uses => fits _ (.head (part_object_iff.mpr ⟨i, member, rfl⟩) uses)).spelled
    have laid := settings.readable_layout depth
    exact whole (written.readable named laid
      (List.forall_mem_map.mpr fun p member => Layout.readable_pair laid (readable_ofText _)
        (readable_rule (isName p.2.2 (by simp only [List.mem_append]; exact .inl (List.mem_map_of_mem member)))))
      (readable_extraPiece settings fun i member => isName i (by simp [member])))

end

end Conversion

end GuidedDecoding
