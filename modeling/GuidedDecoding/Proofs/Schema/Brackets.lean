import Mathlib
import GuidedDecoding.Proofs.Json.Printer
import GuidedDecoding.Proofs.Schema.Promises

open scoped Computability

namespace GuidedDecoding

open Fragment (Sequence)
open JsonSyntax (comma colon texts texts_list)

namespace JsonSyntax

theorem isBlank_of_isSpace {c : Char} (space : isSpace c) : Text.isBlank c = true := by
  simp only [isSpace, List.mem_cons, List.not_mem_nil, or_false] at space
  rcases space with rfl | rfl | rfl | rfl <;> decide

theorem trim_surrounded {sign : Char} (visible : Text.isBlank sign = false) {text : List Char}
    (surrounded : text ∈ blanks isSpace * {[sign]} * blanks isSpace) : Text.trim text = [sign] := by
  obtain ⟨_, ⟨before, leading, _, rfl, rfl⟩, after, trailing, rfl⟩ := surrounded
  have leading := mem_blanks.mp leading
  have trailing := mem_blanks.mp trailing
  have front : (before ++ ([sign] ++ after)).dropWhile Text.isBlank = [sign] ++ after := by
    rw [List.dropWhile_append_of_pos fun c member => isBlank_of_isSpace (leading c member)]
    exact List.dropWhile_cons_of_neg (by simp [visible])
  have back : (after.reverse ++ [sign]).dropWhile Text.isBlank = [sign] := by
    rw [List.dropWhile_append_of_pos fun c member => isBlank_of_isSpace (trailing c (List.mem_reverse.mp member))]
    exact List.dropWhile_cons_of_neg (by simp [visible])
  change Text.trim (before ++ [sign] ++ after) = [sign]
  rw [Text.trim, List.append_assoc, front, List.reverse_append, List.reverse_singleton, back, List.reverse_singleton]

end JsonSyntax

open JsonSyntax (isSpace mem_blanks)

/-- The separators are a comma and a colon, up to blanks around them. -/
def SchemaSettings.Surrounded (settings : SchemaSettings) : Prop :=
  ∀ separators ∈ settings.separators,
    separators.1.toList ∈ comma isSpace ∧ separators.2.toList ∈ colon isSpace

/-- Nothing but blanks stands around brackets, commas and colons. -/
structure Layout.Proper (layout : Layout) : Prop where
  opening : ∀ promises : Promises, promises.Writes [layout.opening] (JsonSyntax.blanks isSpace)
  between : ∀ promises : Promises, promises.Writes layout.between (comma isSpace)
  keyValue : ∀ promises : Promises, promises.Writes layout.keyValue (colon isSpace)
  closing : ∀ promises : Promises, promises.Writes [layout.closing] (JsonSyntax.blanks isSpace)
  inEmpty : ∀ promises : Promises, promises.Writes [layout.inEmpty] (JsonSyntax.blanks isSpace)

namespace Layout

theorem writes_blanks (promises : Promises) : promises.Writes [blanks] (JsonSyntax.blanks isSpace) := by
  have known : ∀ c : Char, c ∈ [' ', '\n', '\t'] → isSpace c := fun c member => by
    simp only [isSpace, List.mem_cons] at member ⊢
    tauto
  refine (Promises.writes_class Fragment.isClass_blank).many.le (kstar_mono fun text member => ?_)
  obtain ⟨c, among, written⟩ := member
  exact ⟨c, known c among, written⟩

section

variable {between keyValue : List Char} (comma : between ∈ comma isSpace) (colon : keyValue ∈ colon isSpace)
include comma colon

theorem proper_spaced : (spaced between keyValue).Proper where
  opening := writes_blanks
  closing := writes_blanks
  inEmpty := writes_blanks
  between promises := by
    have sign : promises.Writes [.ofText (Text.trim between)] {[',']} := by
      rw [JsonSyntax.trim_surrounded (by decide) comma]
      exact Promises.writes_exactly [',']
    exact ((writes_blanks promises).append sign).append (writes_blanks promises)
  keyValue promises := by
    have sign : promises.Writes [.ofText (Text.trim keyValue)] {[':']} := by
      rw [JsonSyntax.trim_surrounded (by decide) colon]
      exact Promises.writes_exactly [':']
    exact ((writes_blanks promises).append sign).append (writes_blanks promises)

theorem proper_oneLine : (oneLine between keyValue).Proper where
  opening _ := Promises.writes_ofText (Language.nil_mem_kstar _)
  closing _ := Promises.writes_ofText (Language.nil_mem_kstar _)
  inEmpty _ := Promises.writes_ofText (Language.nil_mem_kstar _)
  between _ := Promises.writes_ofText comma
  keyValue _ := Promises.writes_ofText colon

theorem proper_lines (indent depth : Nat) : (lines between keyValue indent depth).Proper := by
  have line (depth : Nat) : '\n' :: List.replicate (indent * depth) ' ' ∈ JsonSyntax.blanks isSpace := by
    rw [mem_blanks]
    intro c member
    rcases List.mem_cons.mp member with rfl | member
    · simp [isSpace]
    · rw [List.eq_of_mem_replicate member]
      simp [isSpace]
  have broken : between ++ '\n' :: List.replicate (indent * (depth + 1)) ' ' ∈ JsonSyntax.comma isSpace := by
    obtain ⟨front, sign, after, blank, rfl⟩ := comma
    rw [List.append_assoc]
    have all := mem_blanks.mp blank
    have more := mem_blanks.mp (line (depth + 1))
    exact ⟨front, sign, _, mem_blanks.mpr fun c member => (List.mem_append.mp member).elim (all c) (more c), rfl⟩
  exact {
    opening := fun _ => Promises.writes_ofText (line (depth + 1))
    closing := fun _ => Promises.writes_ofText (line depth)
    inEmpty := fun _ => Promises.writes_ofText (Language.nil_mem_kstar _)
    between := fun _ => Promises.writes_ofText broken
    keyValue := fun _ => Promises.writes_ofText colon }

end

end Layout

namespace SchemaSettings

variable {settings : SchemaSettings} (surrounded : settings.Surrounded)
include surrounded

theorem separatorTexts_mem :
    settings.separatorTexts.1 ∈ comma isSpace ∧ settings.separatorTexts.2 ∈ colon isSpace := by
  have space : ∀ c ∈ [' '], isSpace c := by simp [isSpace]
  have colon_space : [':', ' '] ∈ colon isSpace := JsonSyntax.surrounded_mem ':' (List.forall_mem_nil _) space
  have comma_space : [',', ' '] ∈ comma isSpace := JsonSyntax.surrounded_mem ',' (List.forall_mem_nil _) space
  unfold separatorTexts
  split
  next given => exact surrounded _ given
  next => exact ⟨Json.comma_mem isSpace, colon_space⟩
  next => exact ⟨comma_space, colon_space⟩

theorem proper_layout (depth : Nat) : (settings.layout depth).Proper := by
  obtain ⟨comma, colon⟩ := separatorTexts_mem surrounded
  unfold layout
  dsimp only
  split_ifs
  · exact Layout.proper_spaced comma colon
  · split
    · exact Layout.proper_lines comma colon _ depth
    · exact Layout.proper_oneLine comma colon

theorem proper_inlineLayout : settings.inlineLayout.Proper := by
  have inline : { settings with indent := none }.Surrounded := surrounded
  obtain ⟨comma, colon⟩ := separatorTexts_mem inline
  unfold inlineLayout
  dsimp only
  split_ifs
  · exact Layout.proper_spaced comma colon
  · exact Layout.proper_oneLine comma colon

end SchemaSettings

structure Lists (one comma list : Language Char) : Prop where
  single : one ≤ list
  cons : one * (comma * list) ≤ list
  more : list * (comma * one)∗ ≤ list

theorem Lists.several {one comma list : Language Char} (lists : Lists one comma list) : one * (comma * one)∗ ≤ list :=
  (mul_le_mul_left lists.single _).trans lists.more

/-- What arrays and objects are to be, and what they are made of. -/
structure Wording where
  value : Language Char
  member : Language Char
  comma : Language Char
  items : Language Char
  members : Language Char
  whole : Language Char

/-- If a layout is filled with what may stand in arrays and objects, what comes out is what these are to be. -/
structure Layout.Words (layout : Layout) (wording : Wording) : Prop where
  items : Lists wording.value wording.comma wording.items
  members : Lists wording.member wording.comma wording.members
  between : ∀ promises : Promises, promises.Writes layout.between wording.comma
  pair : ∀ {promises : Promises} {key value : Fragment}, promises.Writes [key] JsonSyntax.string →
    promises.Writes [value] wording.value → promises.Writes (layout.pair key value) wording.member
  arrayOf : ∀ {promises : Promises} {inside : Sequence}, promises.Writes inside wording.items →
    promises.Writes (layout.arrayOf inside) wording.whole
  emptyArray : ∀ promises : Promises, promises.Writes layout.emptyArray wording.whole
  objectOf : ∀ {promises : Promises} {inside : Sequence}, promises.Writes inside wording.members →
    promises.Writes (layout.objectOf inside) wording.whole
  emptyObject : ∀ promises : Promises, promises.Writes layout.emptyObject wording.whole

section

variable {promises : Promises} {layout : Layout} (proper : layout.Proper)
include proper

open JsonSyntax (Part)

namespace Layout

theorem writes_enclosed (left right : Char) {inside : Sequence} {of : Part}
    (list : promises.Writes inside (texts isSpace (.list of))) :
    promises.Writes ([.ofText [left]] ++ layout.opening :: inside ++ [layout.closing, .ofText [right]])
      ({[left]} * texts isSpace (.contents of) * {[right]}) := by
  have start := (Promises.writes_exactly [left]).append ((proper.opening promises).cons list)
  have stop := (proper.closing promises).cons (Promises.writes_exactly [right])
  refine (start.append stop).le ?_
  have contents : JsonSyntax.blanks isSpace * texts isSpace (.list of) * JsonSyntax.blanks isSpace ≤
      texts isSpace (.contents of) := by
    rw [JsonSyntax.texts_contents]
    exact le_add_of_nonneg_left bot_le
  calc {[left]} * (JsonSyntax.blanks isSpace * texts isSpace (.list of)) * (JsonSyntax.blanks isSpace * {[right]})
      = {[left]} * (JsonSyntax.blanks isSpace * texts isSpace (.list of) * JsonSyntax.blanks isSpace) *
          {[right]} := by simp only [mul_assoc]
    _ ≤ {[left]} * texts isSpace (.contents of) * {[right]} := mul_le_mul_left (mul_le_mul_right contents _) _

theorem writes_bare (promises : Promises) (left right : Char) (of : Part) :
    promises.Writes [.ofText [left], layout.inEmpty, .ofText [right]]
      ({[left]} * texts isSpace (.contents of) * {[right]}) := by
  have contents : JsonSyntax.blanks isSpace ≤ texts isSpace (.contents of) := fun _ blank => .nothing blank
  have inside := (proper.inEmpty promises).le contents
  exact ((Promises.writes_exactly [left]).append inside).append (Promises.writes_exactly [right])

theorem writes_arrayOf {inside : Sequence} (list : promises.Writes inside (texts isSpace (.list .value))) :
    promises.Writes (layout.arrayOf inside) (texts isSpace .value) := by
  have array := writes_enclosed proper '[' ']' list
  rw [← JsonSyntax.texts_array] at array
  exact array.le fun _ array => .ofArray array

theorem writes_emptyArray : promises.Writes layout.emptyArray (texts isSpace .value) := by
  have array := writes_bare proper promises '[' ']' .value
  rw [← JsonSyntax.texts_array] at array
  exact array.le fun _ array => .ofArray array

theorem writes_objectOf {inside : Sequence} (list : promises.Writes inside (texts isSpace (.list .member))) :
    promises.Writes (layout.objectOf inside) (texts isSpace .value) := by
  have object := writes_enclosed proper '\x7b' '\x7d' list
  rw [← JsonSyntax.texts_object] at object
  exact object.le fun _ object => .ofObject object

theorem writes_emptyObject : promises.Writes layout.emptyObject (texts isSpace .value) := by
  have object := writes_bare proper promises '\x7b' '\x7d' .member
  rw [← JsonSyntax.texts_object] at object
  exact object.le fun _ object => .ofObject object

theorem writes_pair {key value : Fragment} (named : promises.Writes [key] JsonSyntax.string)
    (valued : promises.Writes [value] (texts isSpace .value)) :
    promises.Writes (layout.pair key value) (texts isSpace .member) := by
  rw [JsonSyntax.texts_member]
  exact (named.append (proper.keyValue promises)).append valued

end Layout

end

theorem JsonSyntax.lists (of : Part) : Lists (texts isSpace of) (comma isSpace) (texts isSpace (.list of)) :=
  ⟨le_list of, cons_le_list of, list_more_le of⟩

def JsonSyntax.wording : Wording where
  value := texts isSpace .value
  member := texts isSpace .member
  comma := comma isSpace
  items := texts isSpace (.list .value)
  members := texts isSpace (.list .member)
  whole := texts isSpace .value

theorem Layout.Proper.words {layout : Layout} (proper : layout.Proper) : layout.Words JsonSyntax.wording where
  items := JsonSyntax.lists .value
  members := JsonSyntax.lists .member
  between := proper.between
  pair named valued := writes_pair proper named valued
  arrayOf list := writes_arrayOf proper list
  emptyArray _ := writes_emptyArray proper
  objectOf list := writes_objectOf proper list
  emptyObject _ := writes_emptyObject proper

theorem SchemaSettings.writes_orEmpty (settings : SchemaSettings) {promises : Promises} {nonEmpty empty : Sequence}
    {language : Language Char} (filled : promises.Writes nonEmpty language) (bare : promises.Writes empty language) :
    promises.Writes (settings.orEmpty nonEmpty empty) language := by
  unfold orEmpty
  split_ifs
  · exact filled
  · apply Promises.WritesAll.group
    intro pieces member
    simp only [List.mem_cons, List.not_mem_nil, or_false] at member
    rcases member with rfl | rfl
    · exact filled
    · exact bare

section

variable {promises : Promises} {layout : Layout} {wording : Wording} (words : layout.Words wording)
include words

namespace Layout

theorem writes_another {item : Sequence} {language : Language Char} (writes : promises.Writes item language) :
    promises.Writes [layout.another item] (wording.comma * language) :=
  ((words.between promises).append writes).all.group

theorem writes_separated {items : List Fragment} (inhabited : items ≠ [])
    (each : ∀ item ∈ items, promises.Writes [item] wording.value) :
    promises.Writes (layout.separated items) wording.items := by
  induction items with
  | nil => exact absurd rfl inhabited
  | cons item items ih =>
    have first := each item (by simp)
    cases items with
    | nil =>
      rw [separated]
      exact first.le words.items.single
    | cons next items =>
      have others := ih (by simp) fun item member => each item (by simp [member])
      rw [separated]
      · have all := (first.append (words.between promises)).append others
        rw [mul_assoc] at all
        exact all.le words.items.cons
      · simp

end Layout

namespace Schema

theorem writes_moreItems {inside : Sequence} (list : promises.Writes inside wording.items) {item : Fragment}
    (writes : promises.Writes [item] wording.value) (min : Nat) (max : Option Nat) :
    promises.Writes (inside ++ [.bounded (layout.another [item]) min max]) wording.items :=
  (list.append ((Layout.writes_another words writes).bounded min max)).le words.items.more

theorem writes_arrayText {settings : SchemaSettings} {leading : List Fragment} {extra : Option Fragment}
    {count : CountBounds} {array : Sequence}
    (leads : ∀ item ∈ leading, promises.Writes [item] wording.value)
    (extras : ∀ item ∈ extra, promises.Writes [item] wording.value)
    (written : arrayText settings layout leading extra count = .ok array) : promises.Writes array wording.whole := by
  have empty := words.emptyArray promises
  have fixed (inhabited : leading ≠ []) := Layout.writes_separated words inhabited leads
  unfold arrayText at written
  dsimp only at written
  split at written
  · cases written
  · obtain rfl := Except.ok.inj written
    cases extra with
    | none =>
      cases leading with
      | nil => exact empty
      | cons => exact words.arrayOf (fixed (by simp))
    | some item =>
      have one := extras item rfl
      cases leading with
      | nil =>
        have filled (min : Nat) (max : Option Nat) :=
          words.arrayOf (writes_moreItems words (one.le words.items.single) one min max)
        dsimp only
        split_ifs
        · exact empty
        · exact settings.writes_orEmpty (filled _ _) empty
        · exact filled _ _
      | cons => exact words.arrayOf (writes_moreItems words (fixed (by simp)) one _ _)

theorem writes_membersFrom {pairs : List Sequence} {tails : List Fragment} {extra : Option Sequence} {last : Fragment}
    (each : ∀ pair ∈ pairs, promises.Writes pair wording.member)
    (follow : ∀ tail ∈ tails, promises.Writes [tail] (wording.comma * wording.member)∗)
    (extras : ∀ pair ∈ extra, promises.Writes pair wording.member)
    (final : promises.Writes [last] (wording.comma * wording.member)∗) :
    promises.Writes [membersFrom pairs tails extra last] wording.members := by
  apply Promises.WritesAll.group
  intro pieces member
  rcases List.mem_append.mp member with listed | more
  · obtain ⟨⟨pair, tail⟩, among, rfl⟩ := List.mem_map.mp listed
    obtain ⟨one, next⟩ := List.of_mem_zip among
    exact ((each pair one).append (follow tail next)).le words.members.several
  · obtain ⟨pair, given, rfl⟩ := List.mem_map.mp more
    exact ((extras pair (by simpa using given)).append final).le words.members.several

theorem writes_membersAfter {members : List Member} (each : ∀ m ∈ members, promises.Writes m.pair wording.member) :
    promises.Writes (membersAfter layout members) (wording.comma * wording.member)∗ := by
  induction members with
  | nil => exact Promises.writes_nil.le one_le_kstar
  | cons m members ih =>
    have others := ih fun m member => each m (by simp [member])
    have next := (words.between promises).append (each m (by simp))
    have first : promises.Writes (if m.required then layout.between ++ m.pair
        else [.optional (.group [layout.between ++ m.pair])]) (wording.comma * wording.member)∗ := by
      split_ifs
      · exact next.le le_kstar
      · exact ((Layout.writes_another words (each m (by simp))).optional).le (add_le one_le_kstar le_kstar)
    exact (first.append others).le (kstar_mul_kstar _).le

theorem writes_membersUntil {members : List Member} (required : members.any Member.required = true)
    (each : ∀ m ∈ members, promises.Writes m.pair wording.member) :
    promises.Writes (membersUntil layout members) wording.members := by
  induction members with
  | nil => cases required
  | cons m members ih =>
    have rest : ∀ m ∈ members, promises.Writes m.pair wording.member := fun m member => each m (by simp [member])
    have one := each m (by simp)
    rw [membersUntil]
    split_ifs with first
    · exact (one.append (writes_membersAfter words rest)).le words.members.several
    · have others := ih (by simpa [first] using required) rest
      have group := (one.append (words.between promises)).all.group
      refine (group.optional.cons others).le ?_
      rw [add_mul, one_mul, mul_assoc]
      exact add_le le_rfl words.members.cons

end Schema

end

end GuidedDecoding
