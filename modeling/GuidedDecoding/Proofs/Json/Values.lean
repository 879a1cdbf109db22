import Mathlib
import GuidedDecoding.Proofs.Json.Syntax

open scoped Computability

namespace GuidedDecoding.JsonSyntax

/-- The texts that do not only consist of blanks. -/
def visible : Language Char := {text | ∃ c ∈ text, ¬isSpace c}

section

variable {one other : Language Char}

theorem visible_mul_right (first : one ≤ visible) : one * other ≤ visible := by
  rintro _ ⟨front, inside, back, _, rfl⟩
  obtain ⟨c, member, shown⟩ := first inside
  exact ⟨c, List.mem_append_left _ member, shown⟩

theorem visible_mul_left (second : other ≤ visible) : one * other ≤ visible := by
  rintro _ ⟨front, _, back, inside, rfl⟩
  obtain ⟨c, member, shown⟩ := second inside
  exact ⟨c, List.mem_append_right _ member, shown⟩

theorem singleton_le_visible {text : List Char} {c : Char} (member : c ∈ text) (shown : ¬isSpace c) :
    ({text} : Language Char) ≤ visible :=
  Set.singleton_subset_iff.mpr ⟨c, member, shown⟩

theorem oneOf_le_visible {p : Char → Prop} (shown : ∀ c, p c → ¬isSpace c) : oneOf p ≤ visible := by
  rintro _ ⟨c, holds, rfl⟩
  exact ⟨c, List.mem_singleton_self c, shown c holds⟩

end

theorem string_le_visible : string ≤ visible :=
  visible_mul_right (visible_mul_right (singleton_le_visible (List.mem_singleton_self '"') (by simp [isSpace])))

theorem whole_le_visible : whole ≤ visible := by
  refine add_le (singleton_le_visible (List.mem_singleton_self '0') (by simp [isSpace])) (visible_mul_right ?_)
  refine oneOf_le_visible fun c digit space => ?_
  simp only [isSpace, List.mem_cons, List.not_mem_nil, or_false] at space
  rcases space with rfl | rfl | rfl | rfl <;> exact absurd digit (by decide)

theorem integer_le_visible : integer ≤ visible := visible_mul_left whole_le_visible

theorem number_le_visible : number ≤ visible := visible_mul_right (visible_mul_right integer_le_visible)

theorem boolean_le_visible : boolean ≤ visible :=
  add_le (singleton_le_visible (List.mem_cons_self : 't' ∈ _) (by simp [isSpace]))
    (singleton_le_visible (List.mem_cons_self : 'f' ∈ _) (by simp [isSpace]))

theorem null_le_visible : null ≤ visible := singleton_le_visible (List.mem_cons_self : 'n' ∈ _) (by simp [isSpace])

theorem value_le_visible (blank : Char → Prop) : texts blank .value ≤ visible := by
  rw [texts_value, texts_object, texts_array]
  have opened (sign : Char) (shown : ¬isSpace sign) (inside closing : Language Char) :
      {[sign]} * inside * closing ≤ visible :=
    visible_mul_right (visible_mul_right (singleton_le_visible (List.mem_singleton_self sign) shown))
  exact add_le (add_le (add_le (add_le (add_le string_le_visible number_le_visible) boolean_le_visible) null_le_visible)
    (opened '\x7b' (by simp [isSpace]) _ _)) (opened '[' (by simp [isSpace]) _ _)

def isStop (c : Char) : Bool := [' ', '\t', '\n', '\r', ',', ':', ']', '\x7d'].contains c

/-- The text up to the end of the value that it begins with, if this is inside `depth` brackets and perhaps inside
a string. -/
def front : Nat → Bool → List Char → List Char
  | _, _, [] => []
  | depth, true, '\\' :: c :: rest => '\\' :: c :: front depth true rest
  | depth, true, c :: rest => c :: front depth (c != '"') rest
  | depth, false, c :: rest =>
    if c = '"' then c :: front depth true rest
    else if c = '[' ∨ c = '\x7b' then c :: front (depth + 1) false rest
    else if depth = 0 ∧ isStop c then []
    else if c = ']' ∨ c = '\x7d' then c :: front (depth - 1) false rest
    else c :: front depth false rest

def passed (depth : Nat) (quoted : Bool) : Language Char :=
  {t | ∀ rest, front depth quoted (t ++ rest) = t ++ front depth quoted rest}

section

variable {depth : Nat} {quoted : Bool} {one other : Language Char}

theorem one_le_passed : 1 ≤ passed depth quoted := by
  rintro _ rfl rest
  rfl

theorem mul_le_passed (first : one ≤ passed depth quoted) (second : other ≤ passed depth quoted) :
    one * other ≤ passed depth quoted := by
  rintro _ ⟨t, inside, u, behind, rfl⟩ rest
  have outer := first inside (u ++ rest)
  have inner := second behind rest
  simp only [List.append_assoc, outer, inner]

theorem kstar_le_passed (each : one ≤ passed depth quoted) : one∗ ≤ passed depth quoted := by
  have all : 1 * one∗ ≤ passed depth quoted := mul_kstar_le one_le_passed (mul_le_passed le_rfl each)
  rwa [one_mul] at all

theorem pow_le_passed (each : one ≤ passed depth quoted) (count : Nat) : one ^ count ≤ passed depth quoted := by
  induction count with
  | zero => exact one_le_passed
  | succ count ih =>
    rw [pow_succ]
    exact mul_le_passed ih each

end

section

variable {depth : Nat}

def isInner (c : Char) : Bool := !(isStop c || ['"', '[', '\x7b'].contains c)

theorem oneOf_le_passed {p : Char → Prop} (inner : ∀ c, p c → isInner c = true) : oneOf p ≤ passed depth false := by
  rintro _ ⟨c, holds, rfl⟩ rest
  have plain := inner c holds
  simp [isInner, isStop] at plain
  simp [front, isStop, plain]

def inner : Language Char := (oneOf fun c => isInner c = true)∗

theorem inner_le_passed : inner ≤ passed depth false := kstar_le_passed (oneOf_le_passed fun _ => id)

theorem singleton_le_inner {t : List Char} (all : ∀ c ∈ t, isInner c = true) : ({t} : Language Char) ≤ inner :=
  Set.singleton_subset_iff.mpr (mem_kstar_oneOf.mpr all)

theorem oneOf_le_inner {p : Char → Prop} (all : ∀ c, p c → isInner c = true) : oneOf p ≤ inner := by
  rintro _ ⟨c, holds, rfl⟩
  exact mem_kstar_oneOf.mpr (List.forall_mem_singleton.mpr (all c holds))

theorem mul_le_inner {one other : Language Char} (first : one ≤ inner) (second : other ≤ inner) : one * other ≤ inner :=
  (mul_le_mul' first second).trans (kstar_mul_kstar _).le

theorem isInner_of_digit {c : Char} (digit : '0' ≤ c ∧ c ≤ '9') : isInner c = true := by
  have apart (sign : Char) (outside : ¬('0' ≤ sign ∧ sign ≤ '9')) : c ≠ sign := fun same => outside (same ▸ digit)
  simp [isInner, isStop, apart]

theorem number_le_inner : number ≤ inner := by
  have sign (c : Char) (plain : isInner c = true) : ({[c]} : Language Char) ≤ inner :=
    singleton_le_inner (List.forall_mem_singleton.mpr plain)
  have digit : digit ≤ inner := oneOf_le_inner fun _ => isInner_of_digit
  have more : JsonSyntax.digit∗ ≤ inner := (kstar_mono digit).trans (kstar_idem _).le
  have digits : digits ≤ inner := mul_le_inner digit more
  have whole : whole ≤ inner := by
    refine add_le (sign '0' (by decide)) (mul_le_inner (oneOf_le_inner fun c leading => ?_) more)
    exact isInner_of_digit ⟨le_trans (by decide) leading.1, leading.2⟩
  have fraction : fraction ≤ inner := mul_le_inner (sign '.' (by decide)) digits
  have exponent : exponent ≤ inner := by
    have mark : ∀ c ∈ ['e', 'E'], isInner c = true := by simp [isInner, isStop]
    have signs : ∀ c ∈ ['+', '-'], isInner c = true := by simp [isInner, isStop]
    exact mul_le_inner (mul_le_inner (oneOf_le_inner mark) (add_le one_le_kstar (oneOf_le_inner signs))) digits
  exact mul_le_inner (mul_le_inner (mul_le_inner (add_le one_le_kstar (sign '-' (by decide))) whole)
    (add_le one_le_kstar fraction)) (add_le one_le_kstar exponent)

theorem boolean_le_inner : boolean ≤ inner :=
  add_le (singleton_le_inner (by simp [isInner, isStop])) (singleton_le_inner (by simp [isInner, isStop]))

theorem null_le_inner : null ≤ inner := singleton_le_inner (by simp [isInner, isStop])

theorem character_le_passed : character ≤ passed depth true := by
  have inside {p : Char → Prop} (plain : ∀ c, p c → c ≠ '"' ∧ c ≠ '\\') : oneOf p ≤ passed depth true := by
    rintro _ ⟨c, holds, rfl⟩ rest
    obtain ⟨mark, escape⟩ := plain c holds
    simp [front, escape, bne_iff_ne.mpr mark]
  have hexDigits : hexDigit ^ 4 ≤ passed depth true := by
    apply pow_le_passed
    apply inside
    intro c digit
    constructor <;> rintro rfl <;> revert digit <;> decide
  apply add_le
  · exact inside fun c plain => plain.2
  · rintro _ ⟨_, rfl, _, ⟨c, _, rfl⟩ | ⟨_, rfl, code, inside, rfl⟩, rfl⟩ rest
    · rfl
    · have behind := hexDigits inside rest
      simp [front, behind]

theorem string_le_passed : string ≤ passed depth false := by
  rintro _ ⟨_, ⟨_, rfl, inside, characters, rfl⟩, _, rfl, rfl⟩ rest
  have all : character∗ ≤ passed depth true := kstar_le_passed character_le_passed
  have within := all characters ('"' :: rest)
  simp [front, within]

theorem oneOf_le_passed_succ {p : Char → Prop} (blank : ∀ c, p c → isStop c = true ∧ c ∉ [']', '\x7d']) :
    oneOf p ≤ passed (depth + 1) false := by
  rintro _ ⟨c, holds, rfl⟩ rest
  obtain ⟨stop, closing⟩ := blank c holds
  have mark : c ≠ '"' ∧ c ≠ '[' ∧ c ≠ '\x7b' := by
    refine ⟨?_, ?_, ?_⟩ <;> rintro rfl <;> exact absurd stop (by decide)
  simp at closing
  simp [front, mark, closing]

theorem bracketed_le_passed {left right : Char} (opening : left = '[' ∨ left = '\x7b') (closing : right = ']' ∨ right = '\x7d')
    {inside : Language Char} (within : inside ≤ passed (depth + 1) false) :
    {[left]} * inside * {[right]} ≤ passed depth false := by
  rintro _ ⟨_, ⟨_, rfl, t, among, rfl⟩, _, rfl, rfl⟩ rest
  have through := within among (right :: rest)
  have left_ne : left ≠ '"' := by rcases opening with rfl | rfl <;> decide
  have right_ne : right ≠ '"' ∧ right ≠ '[' ∧ right ≠ '\x7b' := by rcases closing with rfl | rfl <;> decide
  simp [front, opening, closing, through, left_ne, right_ne]

theorem blanks_le_passed : blanks isSpace ≤ passed (depth + 1) false := by
  refine kstar_le_passed (oneOf_le_passed_succ fun c space => ?_)
  simp only [isSpace, List.mem_cons, List.not_mem_nil, or_false] at space
  rcases space with rfl | rfl | rfl | rfl <;> decide

theorem separator_le_passed {sign : Char} (stop : isStop sign = true ∧ sign ∉ [']', '\x7d']) :
    blanks isSpace * {[sign]} * blanks isSpace ≤ passed (depth + 1) false := by
  have alone : ({[sign]} : Language Char) ≤ oneOf (· = sign) := Set.singleton_subset_iff.mpr ⟨sign, rfl, rfl⟩
  have single : oneOf (· = sign) ≤ passed (depth + 1) false := oneOf_le_passed_succ fun c same => same ▸ stop
  exact mul_le_passed (mul_le_passed blanks_le_passed (alone.trans single)) blanks_le_passed

theorem comma_le_passed : comma isSpace ≤ passed (depth + 1) false := separator_le_passed (by decide)

theorem colon_le_passed : colon isSpace ≤ passed (depth + 1) false := separator_le_passed (by decide)

/-- A value neither ends itself nor, inside of brackets, what it is part of. -/
theorem value_le_passed (depth : Nat) : texts isSpace .value ≤ passed depth false := by
  let sets (part : Part) : Language Char :=
    match part with
    | .value | .object | .array => {t | ∀ depth, t ∈ passed depth false}
    | _ => {t | ∀ depth, t ∈ passed (depth + 1) false}
  have anywhere : sets .value ≤ passed depth false := fun t within => within depth
  have enclosed (part : Part) (depth : Nat) : sets part ≤ passed (depth + 1) false := by
    cases part <;> exact fun t within => within _
  refine (texts_least ?_ ?_ ?_ ?_ ?_ ?_ Part.value).trans anywhere
  · intro t among depth
    have nested : sets .object + sets .array ≤ passed depth false :=
      add_le (fun t within => within depth) fun t within => within depth
    have words : number + boolean + null ≤ passed depth false :=
      (add_le (add_le number_le_inner boolean_le_inner) null_le_inner).trans inner_le_passed
    have scalars : string + number + boolean + null ≤ passed depth false := by
      rw [add_assoc, add_assoc, ← add_assoc number]
      exact add_le string_le_passed words
    rw [add_assoc] at among
    exact add_le scalars nested among
  · exact fun t among depth => bracketed_le_passed (.inr rfl) (.inr rfl) (enclosed (.contents .member) depth) among
  · exact fun t among depth => bracketed_le_passed (.inl rfl) (.inl rfl) (enclosed (.contents .value) depth) among
  · intro t among depth
    exact mul_le_passed (mul_le_passed string_le_passed colon_le_passed) (enclosed .value depth) among
  · intro of t among depth
    have inside := mul_le_passed (mul_le_passed blanks_le_passed (enclosed (.list of) depth)) blanks_le_passed
    exact add_le blanks_le_passed inside among
  · intro of t among depth
    have more := mul_le_passed (enclosed (.list of) depth) (mul_le_passed comma_le_passed (enclosed of depth))
    exact add_le (enclosed of depth) more among

end

def Ended (t : List Char) : Prop := ∀ c ∈ t.head?, isStop c = true

def Begun (t : List Char) : Prop := ∀ c ∈ t.head?, ¬isSpace c

theorem isStop_of_isSpace {c : Char} (space : isSpace c) : isStop c = true := by
  simp only [isSpace, List.mem_cons, List.not_mem_nil, or_false] at space
  rcases space with rfl | rfl | rfl | rfl <;> decide

theorem front_of_ended {t : List Char} (ended : Ended t) : front 0 false t = [] := by
  cases t with
  | nil => rfl
  | cons c rest =>
    have stop := ended c rfl
    have opening : c ≠ '"' ∧ c ≠ '[' ∧ c ≠ '\x7b' := by
      refine ⟨?_, ?_, ?_⟩ <;> rintro rfl <;> exact absurd stop (by decide)
    simp [front, opening, stop]

theorem begun_value {v : List Char} (value : v ∈ texts isSpace .value) (rest : List Char) : Begun (v ++ rest) := by
  intro c first space
  obtain ⟨_, member, _⟩ := value_le_visible isSpace value
  obtain ⟨d, tail, rfl⟩ := List.exists_cons_of_ne_nil (List.ne_nil_of_mem member)
  obtain rfl : d = c := by simpa using first
  have whole := value_le_passed 0 value []
  have nothing : front 0 false (d :: tail ++ []) = [] := front_of_ended fun c first => by
    obtain rfl : d = c := by simpa using first
    exact isStop_of_isSpace space
  rw [nothing] at whole
  simp at whole

theorem value_cancel {v w t u : List Char} (first : v ∈ texts isSpace .value) (second : w ∈ texts isSpace .value)
    (ended : Ended t) (also : Ended u) (same : v ++ t = w ++ u) : v = w ∧ t = u := by
  have left := value_le_passed 0 first t
  have right := value_le_passed 0 second u
  rw [front_of_ended ended, List.append_nil] at left
  rw [front_of_ended also, List.append_nil] at right
  obtain rfl : v = w := left.symm.trans ((congrArg _ same).trans right)
  exact ⟨rfl, List.append_cancel_left same⟩

theorem blanks_cancel {b d t u : List Char} (first : b ∈ blanks isSpace) (second : d ∈ blanks isSpace) (begun : Begun t)
    (also : Begun u) (same : b ++ t = d ++ u) : t = u := by
  rw [mem_blanks] at first second
  induction b generalizing d with
  | nil =>
    cases d with
    | nil => exact same
    | cons c d => exact absurd (second c (by simp)) (begun c (by simp [show t = _ from same]))
  | cons c b ih =>
    cases d with
    | nil => exact absurd (first c (by simp)) (also c (by simp [show u = _ from same.symm]))
    | cons e d =>
      exact ih (fun c member => first c (by simp [member])) (fun c member => second c (by simp [member]))
        (List.cons.inj same).2

end GuidedDecoding.JsonSyntax
