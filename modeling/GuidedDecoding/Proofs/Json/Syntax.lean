import Mathlib

open scoped Computability

namespace GuidedDecoding.JsonSyntax

def oneOf (p : Char → Prop) : Language Char := {text | ∃ c, p c ∧ [c] = text}

theorem mem_oneOf {p : Char → Prop} {text : List Char} : text ∈ oneOf p ↔ ∃ c, p c ∧ [c] = text := Iff.rfl

theorem singleton_mem_oneOf {p : Char → Prop} {c : Char} : [c] ∈ oneOf p ↔ p c := by
  rw [mem_oneOf]
  constructor
  · intro h
    obtain ⟨_, holds, same⟩ := h
    rwa [← List.singleton_inj.mp same]
  · exact fun holds => ⟨c, holds, rfl⟩

theorem mem_kstar_oneOf {p : Char → Prop} {text : List Char} : text ∈ (oneOf p)∗ ↔ ∀ c ∈ text, p c := by
  induction text with
  | nil => simp [Language.nil_mem_kstar]
  | cons c text ih =>
    rw [List.forall_mem_cons, ← ih, ← Language.one_add_self_mul_kstar_eq_kstar, Language.mem_add, Language.mem_mul]
    constructor
    · rintro (none | ⟨_, ⟨d, holds, rfl⟩, rest, others, same⟩)
      · cases none
      · obtain ⟨rfl, rfl⟩ := List.cons.inj same
        exact ⟨holds, by rwa [Language.one_add_self_mul_kstar_eq_kstar]⟩
    · intro h
      refine .inr ⟨[c], ⟨c, h.1, rfl⟩, text, ?_, rfl⟩
      rw [Language.one_add_self_mul_kstar_eq_kstar] at h
      exact h.2

def digit : Language Char := oneOf fun c => '0' ≤ c ∧ c ≤ '9'

def hexDigit : Language Char := oneOf fun c => '0' ≤ c ∧ c ≤ '9' ∨ 'a' ≤ c ∧ c ≤ 'f' ∨ 'A' ≤ c ∧ c ≤ 'F'

def digits : Language Char := digit * digit∗

def whole : Language Char := {['0']} + oneOf (fun c => '1' ≤ c ∧ c ≤ '9') * digit∗

def integer : Language Char := (1 + {['-']}) * whole

def fraction : Language Char := {['.']} * digits

def exponent : Language Char := oneOf (· ∈ ['e', 'E']) * (1 + oneOf (· ∈ ['+', '-'])) * digits

def number : Language Char := integer * (1 + fraction) * (1 + exponent)

def plain : Language Char := oneOf fun c => 0x20 ≤ c.toNat ∧ c ≠ '"' ∧ c ≠ '\\'

def escape : Language Char :=
  oneOf (· ∈ ['"', '\\', '/', 'b', 'f', 'n', 'r', 't']) + {['u']} * hexDigit ^ 4

def character : Language Char := plain + {['\\']} * escape

def string : Language Char := {['"']} * character∗ * {['"']}

def boolean : Language Char := {['t', 'r', 'u', 'e']} + {['f', 'a', 'l', 's', 'e']}

def null : Language Char := {['n', 'u', 'l', 'l']}

/-- The characters that may stand around the parts of a text without a meaning. -/
def isSpace (c : Char) : Prop := c ∈ [' ', '\t', '\n', '\r']

def blanks (blank : Char → Prop) : Language Char := (oneOf blank)∗

def comma (blank : Char → Prop) : Language Char := blanks blank * {[',']} * blanks blank

def colon (blank : Char → Prop) : Language Char := blanks blank * {[':']} * blanks blank

inductive Part where
  | value
  | object
  | array
  | member
  | contents (of : Part)
  | list (of : Part)

inductive Derives (blank : Char → Prop) : Part → List Char → Prop where
  | scalar {t : List Char} (scalar : t ∈ string + number + boolean + null) : Derives blank .value t
  | ofObject {t : List Char} (object : Derives blank .object t) : Derives blank .value t
  | ofArray {t : List Char} (array : Derives blank .array t) : Derives blank .value t
  | object {t : List Char} (inside : Derives blank (.contents .member) t) :
    Derives blank .object (['\x7b'] ++ t ++ ['\x7d'])
  | array {t : List Char} (inside : Derives blank (.contents .value) t) :
    Derives blank .array (['['] ++ t ++ [']'])
  | member {key gap t : List Char} (named : key ∈ string) (separated : gap ∈ colon blank)
    (value : Derives blank .value t) : Derives blank .member (key ++ gap ++ t)
  | nothing {of : Part} {gap : List Char} (blanks : gap ∈ blanks blank) : Derives blank (.contents of) gap
  | contents {of : Part} {opening t closing : List Char} (before : opening ∈ blanks blank)
    (list : Derives blank (.list of) t) (after : closing ∈ blanks blank) :
    Derives blank (.contents of) (opening ++ t ++ closing)
  | first {of : Part} {t : List Char} (one : Derives blank of t) : Derives blank (.list of) t
  | next {of : Part} {before gap t : List Char} (list : Derives blank (.list of) before)
    (separated : gap ∈ comma blank) (one : Derives blank of t) :
    Derives blank (.list of) (before ++ (gap ++ t))

def texts (blank : Char → Prop) (part : Part) : Language Char := {t | Derives blank part t}

/-- A whole JSON text is a value with blanks around it. -/
def document (blank : Char → Prop) : Language Char := blanks blank * texts blank .value * blanks blank

section

variable {blank : Char → Prop}

theorem mem_blanks {text : List Char} : text ∈ blanks blank ↔ ∀ c ∈ text, blank c := mem_kstar_oneOf

theorem surrounded_mem {before after : List Char} (sign : Char) (leading : ∀ c ∈ before, blank c)
    (trailing : ∀ c ∈ after, blank c) : before ++ [sign] ++ after ∈ blanks blank * {[sign]} * blanks blank :=
  Language.append_mem_mul (Language.append_mem_mul (mem_blanks.mpr leading) rfl) (mem_blanks.mpr trailing)

theorem string_le_value : string ≤ texts blank .value := fun _ text => .scalar (.inl (.inl (.inl text)))

theorem value_le_document : texts blank .value ≤ document blank := by
  have bare : 1 * texts blank .value * 1 ≤ document blank :=
    mul_le_mul' (mul_le_mul' one_le_kstar le_rfl) one_le_kstar
  rwa [one_mul, mul_one] at bare

theorem mem_texts {part : Part} {t : List Char} : t ∈ texts blank part ↔ Derives blank part t := Iff.rfl

theorem texts_value : texts blank .value =
    string + number + boolean + null + texts blank .object + texts blank .array := by
  ext t
  simp only [Language.mem_add (string + number + boolean + null + _), Language.mem_add _ (texts blank .object),
    mem_texts]
  constructor
  · intro derives
    cases derives with
    | scalar scalar => exact .inl (.inl scalar)
    | ofObject object => exact .inl (.inr object)
    | ofArray array => exact .inr array
  · rintro ((scalar | object) | array)
    · exact .scalar scalar
    · exact .ofObject object
    · exact .ofArray array

theorem texts_object : texts blank .object = {['\x7b']} * texts blank (.contents .member) * {['\x7d']} := by
  apply le_antisymm
  · intro t derives
    cases derives with
    | object inside => exact Language.append_mem_mul (Language.append_mem_mul rfl inside) rfl
  · intro t derives
    obtain ⟨_, ⟨_, rfl, t, inside, rfl⟩, _, rfl, rfl⟩ := derives
    exact .object inside

theorem texts_array : texts blank .array = {['[']} * texts blank (.contents .value) * {[']']} := by
  apply le_antisymm
  · intro t derives
    cases derives with
    | array inside => exact Language.append_mem_mul (Language.append_mem_mul rfl inside) rfl
  · intro t derives
    obtain ⟨_, ⟨_, rfl, t, inside, rfl⟩, _, rfl, rfl⟩ := derives
    exact .array inside

theorem texts_member : texts blank .member = string * colon blank * texts blank .value := by
  apply le_antisymm
  · intro t derives
    cases derives with
    | member named separated value =>
      exact Language.append_mem_mul (Language.append_mem_mul named separated) value
  · intro t derives
    obtain ⟨_, ⟨key, named, gap, separated, rfl⟩, t, value, rfl⟩ := derives
    exact .member named separated value

theorem texts_contents (of : Part) : texts blank (.contents of) =
    blanks blank + blanks blank * texts blank (.list of) * blanks blank := by
  apply le_antisymm
  · intro t derives
    cases derives with
    | nothing blanks => exact .inl blanks
    | contents before list after =>
      exact .inr (Language.append_mem_mul (Language.append_mem_mul before list) after)
  · rintro t (blanks | derives)
    · exact .nothing blanks
    · obtain ⟨_, ⟨opening, before, t, list, rfl⟩, closing, after, rfl⟩ := derives
      exact .contents before list after

theorem texts_list (of : Part) :
    texts blank (.list of) = texts blank of * (comma blank * texts blank of)∗ := by
  apply le_antisymm
  · intro t derives
    generalize several : Part.list of = part at derives
    induction derives with
    | first one =>
      obtain rfl := Part.list.inj several
      exact ⟨_, one, [], Language.nil_mem_kstar _, List.append_nil _⟩
    | next list separated one before =>
      obtain rfl := Part.list.inj several
      obtain ⟨head, inside, tail, others, rfl⟩ := before rfl
      rw [List.append_assoc]
      have more := Language.append_mem_mul others (Language.append_mem_mul separated one)
      exact Language.append_mem_mul inside
        (Set.mem_of_mem_of_subset more (kstar_mul_le_kstar (a := comma blank * texts blank of)))
    | _ => cases several
  · apply mul_kstar_le
    · exact fun t one => .first one
    · intro t derives
      obtain ⟨before, list, _, ⟨gap, separated, t, one, rfl⟩, rfl⟩ := derives
      exact .next list separated one

theorem le_list (of : Part) : texts blank of ≤ texts blank (.list of) := fun _ one => .first one

theorem cons_le_list (of : Part) :
    texts blank of * (comma blank * texts blank (.list of)) ≤ texts blank (.list of) := by
  rw [texts_list]
  calc texts blank of * (comma blank * (texts blank of * (comma blank * texts blank of)∗))
      = texts blank of * (comma blank * texts blank of * (comma blank * texts blank of)∗) := by
        rw [mul_assoc (comma blank)]
    _ ≤ texts blank of * (comma blank * texts blank of)∗ := mul_le_mul_right mul_kstar_le_kstar _

theorem list_more_le (of : Part) :
    texts blank (.list of) * (comma blank * texts blank of)∗ ≤ texts blank (.list of) := by
  rw [texts_list, mul_assoc, kstar_mul_kstar]

/-- The texts of the parts are the least sets that allow what the syntax allows. -/
theorem texts_least {sets : Part → Language Char}
    (value : string + number + boolean + null + sets .object + sets .array ≤ sets .value)
    (object : {['\x7b']} * sets (.contents .member) * {['\x7d']} ≤ sets .object)
    (array : {['[']} * sets (.contents .value) * {[']']} ≤ sets .array)
    (member : string * colon blank * sets .value ≤ sets .member)
    (contents : ∀ of, blanks blank + blanks blank * sets (.list of) * blanks blank ≤ sets (.contents of))
    (list : ∀ of, sets of + sets (.list of) * (comma blank * sets of) ≤ sets (.list of)) (part : Part) :
    texts blank part ≤ sets part := by
  intro t derives
  induction derives with
  | scalar scalar => exact value (.inl (.inl scalar))
  | ofObject _ ih => exact value (.inl (.inr ih))
  | ofArray _ ih => exact value (.inr ih)
  | object _ ih => exact object (Language.append_mem_mul (Language.append_mem_mul rfl ih) rfl)
  | array _ ih => exact array (Language.append_mem_mul (Language.append_mem_mul rfl ih) rfl)
  | member named separated _ ih =>
    exact member (Language.append_mem_mul (Language.append_mem_mul named separated) ih)
  | nothing blanks => exact contents _ (.inl blanks)
  | contents before _ after ih =>
    exact contents _ (.inr (Language.append_mem_mul (Language.append_mem_mul before ih) after))
  | first _ ih => exact list _ (.inl ih)
  | next _ separated _ before one =>
    exact list _ (.inr (Language.append_mem_mul before (Language.append_mem_mul separated one)))

end

end GuidedDecoding.JsonSyntax
