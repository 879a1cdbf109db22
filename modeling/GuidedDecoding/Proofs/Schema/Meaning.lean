import Mathlib
import GuidedDecoding.Proofs.Schema.Denotation
import GuidedDecoding.Schema.Conversion

open scoped Computability

namespace GuidedDecoding

open Fragment (Sequence denotes denotesSequence denotesAlternatives)

section

variable {ι : Type} {p : ι → Prop} {f g : ι → Language Char}

def anyOf (p : ι → Prop) (f : ι → Language Char) : Language Char := {text | ∃ i, p i ∧ text ∈ f i}

theorem mem_anyOf {text : List Char} : text ∈ anyOf p f ↔ ∃ i, p i ∧ text ∈ f i := Iff.rfl

theorem anyOf_congr (same : ∀ i, p i → f i = g i) : anyOf p f = anyOf p g := by
  ext text
  exact exists_congr fun i => and_congr_right fun holds => by rw [same i holds]

theorem mul_anyOf (language : Language Char) : language * anyOf p f = anyOf p fun i => language * f i := by
  ext text
  constructor
  · rintro ⟨front, first, back, ⟨i, holds, second⟩, rfl⟩
    exact ⟨i, holds, front, first, back, second, rfl⟩
  · rintro ⟨i, holds, front, first, back, second, rfl⟩
    exact ⟨front, first, back, ⟨i, holds, second⟩, rfl⟩

theorem anyOf_mul (language : Language Char) : anyOf p f * language = anyOf p fun i => f i * language := by
  ext text
  constructor
  · rintro ⟨front, ⟨i, holds, first⟩, back, second, rfl⟩
    exact ⟨i, holds, front, first, back, second, rfl⟩
  · rintro ⟨i, holds, front, first, back, second, rfl⟩
    exact ⟨front, ⟨i, holds, first⟩, back, second, rfl⟩

end

/-- Some members of a list in their order, among them all that are required. -/
def Selects {α : Type} (required : α → Bool) (all chosen : List α) : Prop :=
  chosen.Sublist all ∧ chosen.filter required = all.filter required

section

variable {α β : Type} {required : α → Bool}

@[simp] theorem selects_nil {chosen : List α} : Selects required [] chosen ↔ chosen = [] := by
  constructor
  · exact fun selects => List.sublist_nil.mp selects.1
  · rintro rfl
    exact ⟨.slnil, rfl⟩

theorem selects_cons {a : α} {all chosen : List α} :
    Selects required (a :: all) chosen ↔
      (∃ rest, chosen = a :: rest ∧ Selects required all rest) ∨ required a = false ∧ Selects required all chosen := by
  constructor
  · rintro ⟨sublist, same⟩
    cases sublist with
    | cons _ sublist =>
      have optional : required a = false := by
        by_contra necessary
        rw [List.filter_cons_of_pos (by simpa using necessary)] at same
        have length := (sublist.filter required).length_le
        rw [same, List.length_cons] at length
        omega
      rw [List.filter_cons_of_neg (by simp [optional])] at same
      exact .inr ⟨optional, sublist, same⟩
    | cons_cons _ sublist =>
      refine .inl ⟨_, rfl, sublist, ?_⟩
      rw [List.filter_cons, List.filter_cons] at same
      split_ifs at same
      · exact (List.cons.inj same).2
      · exact same
  · rintro (⟨rest, rfl, sublist, same⟩ | ⟨optional, sublist, same⟩)
    · exact ⟨sublist.cons_cons a, by rw [List.filter_cons, List.filter_cons, same]⟩
    · exact ⟨sublist.cons a, by rw [List.filter_cons_of_neg (by simp [optional]), same]⟩

theorem Selects.ne_nil {all chosen : List α} (selects : Selects required all chosen) (some : all.any required = true) :
    chosen ≠ [] := by
  rintro rfl
  obtain ⟨a, member, necessary⟩ := List.any_eq_true.mp some
  have kept : a ∈ all.filter required := List.mem_filter.mpr ⟨member, necessary⟩
  rw [← selects.2] at kept
  cases kept

theorem selects_nil_right {all : List α} : Selects required all [] ↔ all.any required = false := by
  constructor
  · exact fun selects => Bool.eq_false_iff.mpr fun some => selects.ne_nil some rfl
  · intro optional
    have none : all.filter required = [] := by simpa using optional
    exact ⟨List.nil_sublist all, none.symm⟩

theorem selects_map {f : β → α} {all : List β} {chosen : List α} :
    Selects required (all.map f) chosen ↔ ∃ picked, Selects (required ∘ f) all picked ∧ picked.map f = chosen := by
  induction all generalizing chosen with
  | nil => simp
  | cons b all ih =>
    rw [List.map_cons, selects_cons]
    simp only [selects_cons, ih]
    constructor
    · rintro (⟨_, rfl, picked, selects, rfl⟩ | ⟨optional, picked, selects, rfl⟩)
      · exact ⟨b :: picked, .inl ⟨picked, rfl, selects⟩, rfl⟩
      · exact ⟨picked, .inr ⟨optional, selects⟩, rfl⟩
    · rintro ⟨_, ⟨picked, rfl, selects⟩ | ⟨optional, selects⟩, rfl⟩
      · exact .inl ⟨_, rfl, picked, selects, rfl⟩
      · exact .inr ⟨optional, _, selects, rfl⟩

end

namespace Layout

variable (layout : Layout) (rules : String → Language Char)

def joined (items : List (Language Char)) : Language Char :=
  (items.intersperse (denotesSequence rules layout.between)).prod

def enclosed (left right : Char) (inside : Language Char) : Language Char :=
  {[left]} * layout.opening.denotes rules * inside * layout.closing.denotes rules * {[right]}

def bare (left right : Char) : Language Char := {[left]} * layout.inEmpty.denotes rules * {[right]}

def pairs (key value : Language Char) : Language Char := key * denotesSequence rules layout.keyValue * value

def following (items : List (Language Char)) : Language Char :=
  (items.map (denotesSequence rules layout.between * ·)).prod

variable {layout rules}

theorem joined_cons (item : Language Char) (items : List (Language Char)) :
    layout.joined rules (item :: items) = item * layout.following rules items := by
  induction items generalizing item with
  | nil => simp [joined, following]
  | cons next items ih =>
    have rest := ih next
    unfold joined at rest ⊢
    rw [List.intersperse_cons_cons, List.prod_cons, List.prod_cons, rest]
    simp only [following, List.map_cons, List.prod_cons, mul_assoc]

@[simp] theorem following_nil : layout.following rules [] = 1 := rfl

@[simp] theorem following_cons (item : Language Char) (items : List (Language Char)) :
    layout.following rules (item :: items) = denotesSequence rules layout.between * item * layout.following rules items :=
  rfl

@[simp] theorem following_append (items others : List (Language Char)) :
    layout.following rules (items ++ others) = layout.following rules items * layout.following rules others := by
  rw [following, List.map_append, List.prod_append]
  rfl

@[simp] theorem following_replicate (count : Nat) (item : Language Char) :
    layout.following rules (List.replicate count item) = (denotesSequence rules layout.between * item) ^ count := by
  rw [following, List.map_replicate, List.prod_replicate]

theorem joined_append {items : List (Language Char)} (some : items ≠ []) (others : List (Language Char)) :
    layout.joined rules (items ++ others) = layout.joined rules items * layout.following rules others := by
  obtain ⟨item, items, rfl⟩ := List.exists_cons_of_ne_nil some
  rw [List.cons_append, joined_cons, joined_cons, following_append, mul_assoc]

theorem enclosed_anyOf {ι : Type} {p : ι → Prop} {f : ι → Language Char} (left right : Char) :
    layout.enclosed rules left right (anyOf p f) = anyOf p fun i => layout.enclosed rules left right (f i) := by
  simp only [enclosed, mul_anyOf, anyOf_mul]

end Layout

namespace Schema

section

variable (settings : SchemaSettings) (layout : Layout) (rules : String → Language Char)

/-- How many items can be in an array that is not empty. -/
def Counted (fixed : Nat) (extra : Option (Language Char)) (count : CountBounds) (n : Nat) : Prop :=
  n ≠ 0 ∧ (extra = none ∧ n = fixed ∨ extra ≠ none ∧ max fixed count.min ≤ n ∧ ∀ most ∈ count.max, n ≤ most)

/-- The arrays whose first items are the leading ones, and whose further items are of one kind. -/
def arrays (leading : List (Language Char)) (extra : Option (Language Char)) (count : CountBounds) : Language Char :=
  {text | (∃ n, Counted leading.length extra count n ∧ text ∈ layout.enclosed rules '[' ']' (layout.joined rules
      (leading ++ List.replicate (n - leading.length) (extra.getD 0)))) ∨
    (leading = [] ∧ (extra = none ∨ count.max = some 0 ∨ settings.strict = false ∧ count.min = 0)) ∧
      text ∈ layout.bare rules '[' ']'}

theorem mem_arrays (leading : List (Language Char)) (extra : Option (Language Char)) (count : CountBounds)
    (text : List Char) : text ∈ arrays settings layout rules leading extra count ↔
      (∃ n, Counted leading.length extra count n ∧ text ∈ layout.enclosed rules '[' ']' (layout.joined rules
        (leading ++ List.replicate (n - leading.length) (extra.getD 0)))) ∨
      (leading = [] ∧ (extra = none ∨ count.max = some 0 ∨ settings.strict = false ∧ count.min = 0)) ∧
        text ∈ layout.bare rules '[' ']' :=
  Iff.rfl

/-- The objects that begin with members selected from the listed ones, and whose further members are of one kind. -/
def objects (listed : List (Bool × Language Char)) (extra : Option (Language Char)) : Language Char :=
  {text | (∃ chosen more, Selects Prod.fst listed chosen ∧ (extra = none → more = 0) ∧ (chosen ≠ [] ∨ more ≠ 0) ∧
      text ∈ layout.enclosed rules '\x7b' '\x7d' (layout.joined rules
        (chosen.map Prod.snd ++ List.replicate more (layout.pairs rules JsonSyntax.string (extra.getD 0))))) ∨
    (listed = [] ∧ extra = none ∨ settings.strict = false ∧ ∀ m ∈ listed, m.1 = false) ∧
      text ∈ layout.bare rules '\x7b' '\x7d'}

theorem mem_objects (listed : List (Bool × Language Char)) (extra : Option (Language Char)) (text : List Char) :
    text ∈ objects settings layout rules listed extra ↔
      (∃ chosen more, Selects Prod.fst listed chosen ∧ (extra = none → more = 0) ∧ (chosen ≠ [] ∨ more ≠ 0) ∧
        text ∈ layout.enclosed rules '\x7b' '\x7d' (layout.joined rules
          (chosen.map Prod.snd ++ List.replicate more (layout.pairs rules JsonSyntax.string (extra.getD 0))))) ∨
      (listed = [] ∧ extra = none ∨ settings.strict = false ∧ ∀ m ∈ listed, m.1 = false) ∧
        text ∈ layout.bare rules '\x7b' '\x7d' :=
  Iff.rfl

end

/-- The strings with so many characters between their quotation marks. -/
def strings (count : CountBounds) : Language Char :=
  {text | ∃ n, (count.min ≤ n ∧ ∀ most ∈ count.max, n ≤ most) ∧ text ∈ {['"']} * JsonSyntax.character ^ n * {['"']}}

def basicTexts : BasicType → Language Char
  | .integer => JsonSyntax.integer
  | .number => JsonSyntax.number
  | .boolean => JsonSyntax.boolean
  | .null => JsonSyntax.null

section

variable (settings : SchemaSettings) (known : String → Option String) (rules : String → Language Char)

mutual

/-- The texts of a schema inside `depth` arrays and objects. References are known by the names of rules. -/
def valueTexts (depth : Nat) : Schema → Language Char
  | .anything => rules "basic_any"
  | .unsupported _ => 0
  | .annotated _ schema => valueTexts depth schema
  | .reference target => (known target).elim 0 rules
  | .constant value => {value.text}
  | .enumeration values => {text | ∃ value ∈ values, value.text = text}
  | .union members => textsOfAny depth members
  | .types alternatives => textsOfAny depth alternatives
  | .basic type => basicTexts type
  | .text (.error _) => 0
  | .text (.ok count) => strings count
  | .array _ _ (.error _) => 0
  | .array leading extra (.ok count) =>
    arrays settings (settings.layout depth) rules (textsOfEach (depth + 1) leading) (textsOfExtra (depth + 1) extra) count
  | .object properties extra =>
    objects settings (settings.layout depth) rules (textsOfMembers (settings.layout depth) (depth + 1) properties)
      (textsOfExtra (depth + 1) extra)

def textsOfAny (depth : Nat) : List Schema → Language Char
  | [] => 0
  | schema :: rest => valueTexts depth schema + textsOfAny depth rest

def textsOfEach (depth : Nat) : List Schema → List (Language Char)
  | [] => []
  | schema :: rest => valueTexts depth schema :: textsOfEach depth rest

def textsOfExtra (depth : Nat) : Extra Schema → Option (Language Char)
  | .forbidden => none
  | .unspecified => if settings.strict then none else some (rules "basic_any")
  | .schema schema => some (valueTexts depth schema)

def textsOfMembers (layout : Layout) (depth : Nat) : List (String × Bool × Schema) → List (Bool × Language Char)
  | [] => []
  | (key, required, schema) :: rest =>
    (required, layout.pairs rules {Json.quote key} (valueTexts depth schema)) :: textsOfMembers layout depth rest

end

theorem textsOfEach_eq_map (depth : Nat) (schemas : List Schema) :
    textsOfEach settings known rules depth schemas = schemas.map (valueTexts settings known rules depth) := by
  induction schemas with
  | nil => rw [textsOfEach, List.map_nil]
  | cons schema rest ih => rw [textsOfEach, List.map_cons, ih]

theorem textsOfMembers_eq_map (layout : Layout) (depth : Nat) (properties : List (String × Bool × Schema)) :
    textsOfMembers settings known rules layout depth properties = properties.map fun p =>
      (p.2.1, layout.pairs rules {Json.quote p.1} (valueTexts settings known rules depth p.2.2)) := by
  induction properties with
  | nil => rw [textsOfMembers, List.map_nil]
  | cons p rest ih => rw [textsOfMembers, List.map_cons, ih]

end

end Schema

end GuidedDecoding
