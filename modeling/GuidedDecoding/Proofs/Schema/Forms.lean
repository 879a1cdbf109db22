import Mathlib
import GuidedDecoding.Proofs.Schema.Legibility
import GuidedDecoding.Proofs.Schema.Meaning

open scoped Computability

namespace GuidedDecoding

open Fragment (Sequence denotes denotesSequence denotesAlternatives)

namespace Fragment

section

variable (rules : String → Language Char)

theorem denotesSequence_singleton (f : Fragment) : denotesSequence rules [f] = denotes rules f := by
  rw [denotesSequence_cons, denotesSequence_nil, mul_one]

theorem denotesAlternatives_singleton (pieces : Sequence) :
    denotesAlternatives rules [pieces] = denotesSequence rules pieces := by
  rw [denotesAlternatives_cons, denotesAlternatives_nil, add_zero]

theorem denotes_single (pieces : Sequence) : denotes rules (.group [pieces]) = denotesSequence rules pieces := by
  rw [denotes_group, denotesAlternatives_singleton]

theorem mem_denotesAlternatives {alternatives : List Sequence} {text : List Char} :
    text ∈ denotesAlternatives rules alternatives ↔ ∃ pieces ∈ alternatives, text ∈ denotesSequence rules pieces := by
  induction alternatives with
  | nil => exact iff_of_false (Set.notMem_empty text) (by simp)
  | cons pieces alternatives ih => rw [denotesAlternatives_cons, Language.mem_add, ih, List.exists_mem_cons_iff]

theorem denotesAlternatives_append (one other : List Sequence) :
    denotesAlternatives rules (one ++ other) = denotesAlternatives rules one + denotesAlternatives rules other := by
  ext text
  simp only [Language.mem_add, mem_denotesAlternatives, List.mem_append, or_and_right, exists_or]

end

end Fragment

section

variable {layout : Layout} {rules : String → Language Char}

namespace Layout

theorem denotes_arrayOf (inside : Sequence) : denotesSequence rules (layout.arrayOf inside) =
    layout.enclosed rules '[' ']' (denotesSequence rules inside) := by
  simp [arrayOf, enclosed, mul_assoc]

theorem denotes_emptyArray : denotesSequence rules layout.emptyArray = layout.bare rules '[' ']' := by
  simp [emptyArray, bare, mul_assoc]

theorem denotes_objectOf (inside : Sequence) : denotesSequence rules (layout.objectOf inside) =
    layout.enclosed rules '\x7b' '\x7d' (denotesSequence rules inside) := by
  simp [objectOf, enclosed, mul_assoc]

theorem denotes_emptyObject : denotesSequence rules layout.emptyObject = layout.bare rules '\x7b' '\x7d' := by
  simp [emptyObject, bare, mul_assoc]

theorem denotes_pair (key value : Fragment) : denotesSequence rules (layout.pair key value) =
    layout.pairs rules (denotes rules key) (denotes rules value) := by
  simp [pair, pairs, mul_assoc]

theorem denotes_another (item : Sequence) : denotes rules (layout.another item) =
    denotesSequence rules layout.between * denotesSequence rules item := by
  simp [another]

theorem denotes_separated (items : List Fragment) : denotesSequence rules (layout.separated items) =
    layout.joined rules (items.map (denotes rules)) := by
  induction items with
  | nil => rfl
  | cons item items ih =>
    rw [List.map_cons, joined_cons]
    cases items with
    | nil => simp [separated]
    | cons next items =>
      rw [separated]
      · rw [Fragment.denotesSequence_append, ih, List.map_cons, joined_cons, following_cons]
        simp [mul_assoc]
      · simp

end Layout

end

theorem SchemaSettings.denotes_orEmpty (settings : SchemaSettings) (rules : String → Language Char)
    (nonEmpty empty : Sequence) : denotesSequence rules (settings.orEmpty nonEmpty empty) =
      denotesSequence rules nonEmpty + if settings.strict then 0 else denotesSequence rules empty := by
  unfold orEmpty
  split_ifs <;> simp

namespace Schema

variable {settings : SchemaSettings} {layout : Layout} {rules : String → Language Char}

theorem denotes_bounded {f : Fragment} {min : Nat} {max : Option Nat} (bounds : Quantifiable min max) :
    denotes rules (.bounded f min max) =
      anyOf (fun n => min ≤ n ∧ ∀ most ∈ max, n ≤ most) fun n => denotes rules f ^ n := by
  ext text
  unfold Fragment.bounded
  split_ifs with closed
  · obtain rfl : min = 0 := Nat.le_zero.mp (bounds.2 0 closed).1
    rw [Fragment.denotes_empty, mem_anyOf]
    constructor
    · exact fun none => ⟨0, by simp, by rwa [pow_zero]⟩
    · rintro ⟨n, ⟨_, most⟩, inside⟩
      obtain rfl := Nat.le_zero.mp (most 0 closed)
      rwa [pow_zero] at inside
  · rw [denotes, Fragment.expr, Expr.mem_denotes_repetition, mem_anyOf]
    refine exists_congr fun n => and_congr_left fun _ => and_congr_right fun _ => forall₂_congr fun most given => ?_
    rw [Nat.max_eq_right (bounds.2 most given).1]

theorem denotes_moreItems {item : Fragment} {count : CountBounds} (bounds : Quantifiable count.min count.max) (fixed : Nat) :
    denotes rules (moreItems layout item count fixed) =
      anyOf (fun n => count.min - fixed ≤ n ∧ ∀ most ∈ count.max, n ≤ most - fixed) fun n =>
        layout.following rules (List.replicate n (denotes rules item)) := by
  rw [moreItems, denotes_bounded (bounds.less fixed), Layout.denotes_another]
  simp

theorem denotes_extended {first : Sequence} {items : List (Language Char)} (some : items ≠ [])
    (written : denotesSequence rules first = layout.joined rules items) {count : CountBounds}
    (bounds : Quantifiable count.min count.max) (room : ∀ most ∈ count.max, items.length ≤ most) (item : Fragment) :
    denotesSequence rules (layout.arrayOf (first ++ [moreItems layout item count items.length])) =
      anyOf (fun n => max items.length count.min ≤ n ∧ ∀ most ∈ count.max, n ≤ most) fun n =>
        layout.enclosed rules '[' ']' (layout.joined rules
          (items ++ List.replicate (n - items.length) (denotes rules item))) := by
  have inside : denotesSequence rules (first ++ [moreItems layout item count items.length]) =
      anyOf (fun n => count.min - items.length ≤ n ∧ ∀ most ∈ count.max, n ≤ most - items.length) fun n =>
        layout.joined rules (items ++ List.replicate n (denotes rules item)) := by
    rw [Fragment.denotesSequence_append, written, Fragment.denotesSequence_singleton, denotes_moreItems bounds, mul_anyOf]
    exact anyOf_congr fun n _ => (Layout.joined_append some _).symm
  rw [Layout.denotes_arrayOf, inside, Layout.enclosed_anyOf]
  ext text
  constructor
  · rintro ⟨n, ⟨least, most⟩, matched⟩
    refine ⟨items.length + n, ⟨by omega, fun bound given => ?_⟩, by simpa using matched⟩
    have := most bound given
    have := room bound given
    omega
  · rintro ⟨n, ⟨least, most⟩, matched⟩
    exact ⟨n - items.length, ⟨by omega, fun bound given => Nat.sub_le_sub_right (most bound given) _⟩, matched⟩

theorem denotes_unlisted {count : CountBounds} (bounds : Quantifiable count.min count.max)
    (inhabited : count.max ≠ some 0) (item : Fragment) :
    denotesSequence rules (layout.arrayOf [item, moreItems layout item count 1]) =
      anyOf (Counted 0 (some (denotes rules item)) count) fun n => layout.enclosed rules '[' ']' (layout.joined rules
        (List.replicate n (denotes rules item))) := by
  have room : ∀ most ∈ count.max, [denotes rules item].length ≤ most := by
    intro most given
    have some : most ≠ 0 := fun none => inhabited (none ▸ given)
    exact Nat.pos_of_ne_zero some
  have written : denotesSequence rules [item] = layout.joined rules [denotes rules item] := by
    rw [Layout.joined_cons]
    simp
  refine (denotes_extended (by simp) written bounds room item).trans ?_
  ext text
  refine exists_congr fun n => ?_
  simp only [Counted, List.length_singleton]
  constructor
  · rintro ⟨⟨least, most⟩, matched⟩
    obtain ⟨n, rfl⟩ := Nat.exists_eq_add_of_le' (le_of_max_le_left least)
    exact ⟨⟨by omega, .inr ⟨by simp, by omega, most⟩⟩, matched⟩
  · rintro ⟨⟨some, counted⟩, matched⟩
    obtain ⟨n, rfl⟩ := Nat.exists_eq_succ_of_ne_zero some
    obtain ⟨_, least, most⟩ := counted.resolve_left (by simp)
    exact ⟨⟨by omega, most⟩, matched⟩

/-- However an array is written, it has as many items as it should. -/
theorem ArrayForm.texts_eq {leading : List Fragment} {extra : Option Fragment} {count : CountBounds} {body : Sequence}
    (form : ArrayForm settings layout leading extra count body) (bounds : Quantifiable count.min count.max)
    (room : ∀ most ∈ count.max, leading.length ≤ most) :
    denotesSequence rules body =
      arrays settings layout rules (leading.map (denotes rules)) (extra.map (denotes rules)) count := by
  ext text
  rw [mem_arrays, List.length_map]
  cases form with
  | bare unlisted closed =>
    subst unlisted
    have none (n : Nat) : ¬Counted 0 (extra.map (denotes rules)) count n := by
      rintro ⟨some, ⟨_, rfl⟩ | ⟨allowed, _, most⟩⟩
      · exact some rfl
      · exact some (Nat.le_zero.mp (most 0 (closed.resolve_left (by simpa using allowed))))
    rw [Layout.denotes_emptyArray]
    constructor
    · exact fun matched => .inr ⟨⟨rfl, closed.imp (by simp +contextual) .inl⟩, matched⟩
    · rintro (⟨n, counted, _⟩ | ⟨_, matched⟩)
      · exact absurd counted (none n)
      · exact matched
  | fixed listed forbidden =>
    subst forbidden
    rw [Layout.denotes_arrayOf, Layout.denotes_separated]
    constructor
    · exact fun matched => .inl ⟨leading.length, ⟨by simpa using listed, .inl ⟨rfl, rfl⟩⟩, by simpa using matched⟩
    · rintro (⟨n, ⟨_, ⟨_, rfl⟩ | ⟨allowed, _⟩⟩, matched⟩ | ⟨⟨unlisted, _⟩, _⟩)
      · simpa using matched
      · exact absurd rfl allowed
      · exact absurd (List.map_eq_nil_iff.mp unlisted) listed
  | @extended item listed allowed =>
    subst allowed
    have written : denotesSequence rules (layout.separated leading) = layout.joined rules (leading.map (denotes rules)) :=
      Layout.denotes_separated leading
    have more := denotes_extended (by simpa using listed) written bounds (by simpa using room) item
    rw [List.length_map] at more
    rw [more, mem_anyOf]
    constructor
    · rintro ⟨n, ⟨least, most⟩, matched⟩
      have positive := List.length_pos_iff.mpr listed
      exact .inl ⟨n, ⟨by omega, .inr ⟨by simp, least, most⟩⟩, matched⟩
    · rintro (⟨n, ⟨_, ⟨forbidden, _⟩ | ⟨_, counted⟩⟩, matched⟩ | ⟨⟨unlisted, _⟩, _⟩)
      · cases forbidden
      · exact ⟨n, counted, matched⟩
      · exact absurd (List.map_eq_nil_iff.mp unlisted) listed
  | @unlisted item unlisted allowed inhabited least =>
    subst unlisted allowed
    rw [denotes_unlisted bounds inhabited, mem_anyOf]
    simp [inhabited, least]
  | @optional item unlisted allowed inhabited least =>
    subst unlisted allowed
    rw [settings.denotes_orEmpty, denotes_unlisted bounds inhabited, Layout.denotes_emptyArray, Language.mem_add, mem_anyOf]
    cases settings.strict <;> simp [inhabited, least]

section

variable {listed : List (Bool × Language Char)} {f : List (Language Char) → Language Char}

def selections (listed : List (Bool × Language Char)) (f : List (Language Char) → Language Char) : Language Char :=
  anyOf (Selects Prod.fst listed) fun chosen => f (chosen.map Prod.snd)

theorem selections_nil : selections [] f = f [] := by
  ext text
  simp [selections, mem_anyOf]

theorem selections_cons (required : Bool) (language : Language Char) : selections ((required, language) :: listed) f =
    selections listed (fun rest => f (language :: rest)) + if required then 0 else selections listed f := by
  ext text
  rw [selections, mem_anyOf, Language.mem_add]
  simp only [selects_cons]
  constructor
  · rintro ⟨_, ⟨rest, rfl, selects⟩ | ⟨optional, selects⟩, matched⟩
    · exact .inl ⟨rest, selects, matched⟩
    · exact .inr (by rw [if_neg (by simp [optional])]; exact ⟨_, selects, matched⟩)
  · rintro (⟨rest, selects, matched⟩ | matched)
    · exact ⟨(required, language) :: rest, .inl ⟨rest, rfl, selects⟩, matched⟩
    · split_ifs at matched with necessary
      · cases matched
      · obtain ⟨chosen, selects, matched⟩ := matched
        exact ⟨chosen, .inr ⟨by simpa using necessary, selects⟩, matched⟩

theorem mul_selections (language : Language Char) :
    language * selections listed f = selections listed fun chosen => language * f chosen :=
  mul_anyOf language

def memberTexts (rules : String → Language Char) (m : Member) : Bool × Language Char :=
  (m.required, denotesSequence rules m.pair)

theorem denotes_membersAfter (members : List Member) : denotesSequence rules (membersAfter layout members) =
    selections (members.map (memberTexts rules)) (layout.following rules) := by
  induction members with
  | nil => rw [List.map_nil, selections_nil]; rfl
  | cons m members ih =>
    have more : selections (members.map (memberTexts rules)) (fun rest =>
        layout.following rules (denotesSequence rules m.pair :: rest)) =
        denotesSequence rules layout.between * denotesSequence rules m.pair *
          denotesSequence rules (membersAfter layout members) := by
      rw [ih, mul_selections]
      rfl
    rw [membersAfter, List.map_cons, memberTexts, selections_cons, Fragment.denotesSequence_append, ← ih, more]
    by_cases required : m.required = true
    · rw [if_pos required, if_pos required, add_zero, Fragment.denotesSequence_append]
    · rw [if_neg required, if_neg required, Fragment.denotesSequence_singleton, Fragment.denotes_optional,
        Fragment.denotes_single, Fragment.denotesSequence_append, add_mul, one_mul, add_comm]

def filled (layout : Layout) (rules : String → Language Char) (listed : List (Bool × Language Char)) : Language Char :=
  anyOf (fun chosen => Selects Prod.fst listed chosen ∧ chosen ≠ []) fun chosen =>
    layout.joined rules (chosen.map Prod.snd)

theorem filled_nil : filled layout rules [] = 0 := by
  ext text
  simp [filled, mem_anyOf]

theorem filled_cons (required : Bool) (language : Language Char) : filled layout rules ((required, language) :: listed) =
    language * selections listed (layout.following rules) + if required then 0 else filled layout rules listed := by
  have front : language * selections listed (layout.following rules) =
      selections listed fun rest => layout.joined rules (language :: rest) := by
    rw [mul_selections]
    exact anyOf_congr fun rest _ => (Layout.joined_cons _ _).symm
  rw [front]
  ext text
  rw [filled, mem_anyOf, Language.mem_add]
  simp only [selects_cons]
  constructor
  · rintro ⟨_, ⟨⟨rest, rfl, selects⟩ | ⟨optional, selects⟩, some⟩, matched⟩
    · exact .inl ⟨rest, selects, matched⟩
    · exact .inr (by rw [if_neg (by simp [optional])]; exact ⟨_, ⟨selects, some⟩, matched⟩)
  · rintro (⟨rest, selects, matched⟩ | matched)
    · exact ⟨(required, language) :: rest, ⟨.inl ⟨rest, rfl, selects⟩, by simp⟩, matched⟩
    · split_ifs at matched with necessary
      · cases matched
      · obtain ⟨chosen, ⟨selects, some⟩, matched⟩ := matched
        exact ⟨chosen, ⟨.inr ⟨by simpa using necessary, selects⟩, some⟩, matched⟩

theorem selections_following (required : listed.any Prod.fst = true) :
    selections listed (layout.following rules) = denotesSequence rules layout.between * filled layout rules listed := by
  have split {chosen : List (Bool × Language Char)} (inhabited : chosen ≠ []) :
      layout.following rules (chosen.map Prod.snd) =
        denotesSequence rules layout.between * layout.joined rules (chosen.map Prod.snd) := by
    obtain ⟨m, rest, rfl⟩ := List.exists_cons_of_ne_nil inhabited
    rw [List.map_cons, Layout.following_cons, mul_assoc, ← Layout.joined_cons]
  rw [filled, mul_anyOf]
  ext text
  refine exists_congr fun chosen => ⟨fun ⟨selects, matched⟩ => ?_, fun ⟨⟨selects, inhabited⟩, matched⟩ => ?_⟩
  · have inhabited := selects.ne_nil required
    exact ⟨⟨selects, inhabited⟩, by simpa only [split inhabited] using matched⟩
  · exact ⟨selects, by simpa only [split inhabited] using matched⟩

theorem denotes_membersUntil {members : List Member} (required : members.any Member.required = true) :
    denotesSequence rules (membersUntil layout members) = filled layout rules (members.map (memberTexts rules)) := by
  induction members with
  | nil => cases required
  | cons m members ih =>
    rw [membersUntil, List.map_cons, memberTexts, filled_cons]
    by_cases here : m.required = true
    · rw [if_pos here, if_pos here, add_zero, Fragment.denotesSequence_append, denotes_membersAfter]
    · have later : members.any Member.required = true := by simpa [here] using required
      have some : (members.map (memberTexts rules)).any Prod.fst = true := by rwa [List.any_map]
      rw [if_neg here, if_neg here, Fragment.denotesSequence_cons, ih later, Fragment.denotes_optional,
        Fragment.denotes_single, Fragment.denotesSequence_append, selections_following some, add_mul, one_mul, add_comm,
        mul_assoc]

def further (layout : Layout) (rules : String → Language Char) (extra : Option (Language Char)) : Language Char :=
  anyOf (fun more => extra = none → more = 0) fun more =>
    layout.following rules (List.replicate more (layout.pairs rules JsonSyntax.string (extra.getD 0)))

theorem further_none : further layout rules none = 1 := by
  ext text
  simp [further, mem_anyOf]

theorem further_some (value : Language Char) : further layout rules (some value) =
    (denotesSequence rules layout.between * layout.pairs rules JsonSyntax.string value)∗ := by
  ext text
  simp [further, mem_anyOf, Language.kstar_eq_iSup_pow, Language.mem_iSup]

def members (layout : Layout) (rules : String → Language Char) (listed : List (Bool × Language Char))
    (extra : Option (Language Char)) : Language Char :=
  anyOf (fun choice : List (Bool × Language Char) × Nat =>
    Selects Prod.fst listed choice.1 ∧ (extra = none → choice.2 = 0) ∧ (choice.1 ≠ [] ∨ choice.2 ≠ 0)) fun choice =>
      layout.joined rules (choice.1.map Prod.snd ++
        List.replicate choice.2 (layout.pairs rules JsonSyntax.string (extra.getD 0)))

/-- The first member is a listed one, or none is required and it is a further one. -/
theorem members_eq (extra : Option (Language Char)) : members layout rules listed extra =
    filled layout rules listed * further layout rules extra +
      if listed.any Prod.fst then 0
      else extra.elim 0 fun value => layout.pairs rules JsonSyntax.string value * further layout rules extra := by
  have behind {chosen : List (Bool × Language Char)} (inhabited : chosen ≠ []) (more : Nat) (value : Language Char) :
      layout.joined rules (chosen.map Prod.snd ++ List.replicate more value) =
        layout.joined rules (chosen.map Prod.snd) * layout.following rules (List.replicate more value) :=
    Layout.joined_append (by simpa using inhabited) _
  have alone (more : Nat) (value : Language Char) : layout.joined rules (List.replicate (more + 1) value) =
      value * layout.following rules (List.replicate more value) := by
    rw [List.replicate_succ, Layout.joined_cons]
  ext text
  rw [members, mem_anyOf, Language.mem_add]
  constructor
  · rintro ⟨⟨chosen, more⟩, ⟨selects, allowed, some⟩, matched⟩
    dsimp only at selects allowed some matched
    by_cases inhabited : chosen = []
    · subst inhabited
      obtain ⟨more, rfl⟩ := Nat.exists_eq_succ_of_ne_zero (some.resolve_left (by simp))
      have optional : listed.any Prod.fst = false := Bool.eq_false_iff.mpr fun required => selects.ne_nil required rfl
      obtain ⟨value, rfl⟩ := Option.ne_none_iff_exists'.mp fun none => Nat.succ_ne_zero more (allowed none)
      rw [List.map_nil, List.nil_append, alone] at matched
      obtain ⟨front, first, back, others, rfl⟩ := matched
      refine .inr ?_
      rw [if_neg (by simp [optional])]
      exact ⟨front, first, back, ⟨more, by simp, others⟩, rfl⟩
    · rw [behind inhabited] at matched
      obtain ⟨front, first, back, others, rfl⟩ := matched
      exact .inl ⟨front, ⟨chosen, ⟨selects, inhabited⟩, first⟩, back, ⟨more, allowed, others⟩, rfl⟩
  · rintro (⟨front, ⟨chosen, ⟨selects, inhabited⟩, first⟩, back, ⟨more, allowed, others⟩, rfl⟩ | matched)
    · refine ⟨(chosen, more), ⟨selects, allowed, .inl inhabited⟩, ?_⟩
      dsimp only
      rw [behind inhabited]
      exact ⟨front, first, back, others, rfl⟩
    · split_ifs at matched with required
      · cases matched
      · cases extra with
        | none => cases matched
        | some value =>
          obtain ⟨front, first, back, ⟨more, _, others⟩, rfl⟩ := matched
          refine ⟨([], more + 1), ⟨selects_nil_right.mpr (by simpa using required), by simp, by simp⟩, ?_⟩
          dsimp only
          rw [List.map_nil, List.nil_append, alone]
          exact ⟨front, first, back, others, rfl⟩

theorem objects_eq (settings : SchemaSettings) (extra : Option (Language Char)) :
    objects settings layout rules listed extra =
      layout.enclosed rules '\x7b' '\x7d' (members layout rules listed extra) +
        if listed = [] ∧ extra = none ∨ settings.strict = false ∧ listed.any Prod.fst = false then
          layout.bare rules '\x7b' '\x7d'
        else 0 := by
  ext text
  rw [mem_objects, members, Layout.enclosed_anyOf, Language.mem_add, mem_anyOf]
  simp only [Prod.exists, and_assoc]
  refine or_congr_right ?_
  have optional : (∀ m ∈ listed, m.1 = false) ↔ listed.any Prod.fst = false := by simp
  rw [optional]
  split_ifs with empty
  · exact and_iff_right empty
  · exact iff_of_false (fun matched => empty matched.1) (Set.notMem_empty text)

end

end Schema

namespace Conversion

open Schema (selections filled)

def State.SolvedBy (s : State) (rules : String → Language Char) : Prop :=
  ∀ rule ∈ s.rules.toList, rules rule.name = denotesAlternatives rules rule.alternatives

section

variable {s : State} {layout : Layout} {rules : String → Language Char} {last : Fragment} {pairs : List Sequence}
  {tails : List Fragment}

def optionalTexts (rules : String → Language Char) (pair : Sequence) : Bool × Language Char :=
  (false, denotesSequence rules pair)

theorem State.Tails.denotes_head (solved : s.SolvedBy rules) (follow : s.Tails layout last pairs tails) :
    ∀ tail ∈ tails.head?, denotes rules tail =
      selections (pairs.tail.map (optionalTexts rules)) (layout.following rules) * denotes rules last := by
  induction follow with
  | none => nofun
  | last =>
    intro tail given
    cases given
    rw [List.tail_cons, List.map_nil, Schema.selections_nil, Layout.following_nil, one_mul]
  | @next pair next rest tail later name after rule ih =>
    intro own given
    cases given
    have inner := ih tail rfl
    have own : rules name = denotesAlternatives rules [[tail], layout.between ++ next ++ [tail]] := solved _ rule
    rw [List.tail_cons] at inner ⊢
    rw [List.map_cons, optionalTexts, Schema.selections_cons, if_neg (by simp), add_mul, ← inner,
      Fragment.denotes_rule, own]
    have more : selections (rest.map (optionalTexts rules)) (fun rest =>
        layout.following rules (denotesSequence rules next :: rest)) * denotes rules last =
        denotesSequence rules (layout.between ++ next ++ [tail]) := by
      simp only [Layout.following_cons, ← Schema.mul_selections]
      simp [inner, mul_assoc]
    rw [more, Fragment.denotesAlternatives_cons, Fragment.denotesAlternatives_singleton,
      Fragment.denotesSequence_singleton, add_comm]

theorem State.Tails.denotes_zip (solved : s.SolvedBy rules) (follow : s.Tails layout last pairs tails) :
    denotesAlternatives rules ((pairs.zip tails).map fun (pair, tail) => pair ++ [tail]) =
      filled layout rules (pairs.map (optionalTexts rules)) * denotes rules last := by
  have first {pair : Sequence} {pairs : List Sequence} {tail : Fragment} {tails : List Fragment}
      (follow : s.Tails layout last (pair :: pairs) (tail :: tails))
      (others : denotesAlternatives rules ((pairs.zip tails).map fun (pair, tail) => pair ++ [tail]) =
        filled layout rules (pairs.map (optionalTexts rules)) * denotes rules last) :
      denotesAlternatives rules (((pair :: pairs).zip (tail :: tails)).map fun (pair, tail) => pair ++ [tail]) =
        filled layout rules ((pair :: pairs).map (optionalTexts rules)) * denotes rules last := by
    rw [List.zip_cons_cons, List.map_cons, Fragment.denotesAlternatives_cons, others, Fragment.denotesSequence_append,
      Fragment.denotesSequence_singleton, follow.denotes_head solved tail rfl, List.tail_cons, List.map_cons, optionalTexts, Schema.filled_cons, if_neg (by simp), add_mul, mul_assoc]
  induction follow with
  | none => simp [Schema.filled_nil]
  | last => exact first .last (by simp [Schema.filled_nil])
  | next after rule ih => exact first (.next after rule) ih

end

theorem denotes_morePairs {layout : Layout} {rules : String → Language Char} (string : rules "basic_string" = JsonSyntax.string)
    (extra : Option Fragment) : denotesSequence rules (morePairs layout extra).toList =
      Schema.further layout rules (extra.map (denotes rules)) := by
  cases extra with
  | none => exact Schema.further_none.symm
  | some value =>
    rw [Option.map_some, Schema.further_some]
    simp [morePairs, extraPair, Layout.denotes_another, Layout.denotes_pair, string]

theorem denotes_lastPairs {layout : Layout} {rules : String → Language Char} (string : rules "basic_string" = JsonSyntax.string)
    (extra : Option Fragment) : denotes rules ((morePairs layout extra).getD .empty) =
      Schema.further layout rules (extra.map (denotes rules)) := by
  rw [← denotes_morePairs string]
  cases morePairs layout extra <;> simp

theorem denotes_extraPair {layout : Layout} {rules : String → Language Char} (string : rules "basic_string" = JsonSyntax.string)
    (value : Fragment) : denotesSequence rules (extraPair layout value) =
      layout.pairs rules JsonSyntax.string (denotes rules value) := by
  rw [extraPair, Layout.denotes_pair, Fragment.denotes_rule, string]

/-- However an object is written, its members are a selection of the listed ones, and then further ones. -/
theorem State.ObjectForm.texts_eq {s : State} {settings : SchemaSettings} {layout : Layout} {rules : String → Language Char}
    (solved : s.SolvedBy rules) (string : rules "basic_string" = JsonSyntax.string) {members : List Schema.Member}
    {extra : Option Fragment} {body : Sequence} (form : s.ObjectForm settings layout members extra body) :
    denotesSequence rules body = Schema.objects settings layout rules (members.map (Schema.memberTexts rules))
      (extra.map (denotes rules)) := by
  have any : (members.map (Schema.memberTexts rules)).any Prod.fst = members.any Schema.Member.required := by
    rw [List.any_map]
    rfl
  rw [Schema.objects_eq, Schema.members_eq, any]
  cases form with
  | anchored required =>
    have some : members ≠ [] := by
      rintro rfl
      cases required
    rw [Layout.denotes_objectOf, Fragment.denotesSequence_append, Schema.denotes_membersUntil required,
      denotes_morePairs string, if_pos required, if_neg (by simp [some, required]), add_zero, add_zero]
  | bare unlisted forbidden =>
    subst unlisted forbidden
    rw [Layout.denotes_emptyObject, List.map_nil, Schema.filled_nil]
    simp [Layout.enclosed]
  | @unlisted value unlisted allowed =>
    subst unlisted allowed
    rw [settings.denotes_orEmpty, Layout.denotes_objectOf, Fragment.denotesSequence_append, denotes_morePairs string,
      denotes_extraPair string, Layout.denotes_emptyObject, List.map_nil, Schema.filled_nil, zero_mul, zero_add]
    cases settings.strict <;> simp
  | @chained tails listed optional follow =>
    have same : (members.map Schema.Member.pair).map (optionalTexts rules) = members.map (Schema.memberTexts rules) := by
      rw [List.map_map]
      refine List.map_congr_left fun m member => ?_
      have optional : m.required = false := by simpa using List.any_eq_false.mp optional m member
      rw [Schema.memberTexts, optional]
      rfl
    have choice : denotes rules (Schema.membersFrom (members.map Schema.Member.pair) tails (extra.map (extraPair layout))
        ((morePairs layout extra).getD .empty)) =
        filled layout rules (members.map (Schema.memberTexts rules)) * Schema.further layout rules (extra.map (denotes rules)) +
          (extra.map (denotes rules)).elim 0 fun value =>
            layout.pairs rules JsonSyntax.string value * Schema.further layout rules (extra.map (denotes rules)) := by
      rw [Schema.membersFrom, Fragment.denotes_group, Fragment.denotesAlternatives_append, follow.denotes_zip solved,
        denotes_lastPairs string, same]
      cases extra with
      | none => simp
      | some value =>
        simp [denotes_extraPair string, denotes_lastPairs string]
    rw [settings.denotes_orEmpty, Layout.denotes_objectOf, Layout.denotes_emptyObject,
      Fragment.denotesSequence_singleton, choice, if_neg (Bool.eq_false_iff.mp optional)]
    congr 1
    by_cases strict : settings.strict = true
    · rw [if_pos strict, if_neg (by simp [listed, strict])]
    · rw [if_neg strict, if_pos (.inr ⟨by simpa using strict, optional⟩)]

end Conversion

end GuidedDecoding
