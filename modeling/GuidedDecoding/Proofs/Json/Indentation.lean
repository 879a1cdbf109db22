import Mathlib
import GuidedDecoding.Proofs.Json.Values

open scoped Computability

namespace GuidedDecoding.Indentation

open JsonSyntax (oneOf isInner)

inductive Mode where
  | outside
  | quoted
  | escaped
  deriving DecidableEq, Repr

/-- How many arrays and objects are open, and what the next character may belong to. -/
structure Place where
  depth : Nat := 0
  mode : Mode := .outside
  deriving DecidableEq, Repr

namespace Place

def step (p : Place) (c : Char) : Place :=
  match p.mode with
  | .escaped => { p with mode := .quoted }
  | .quoted =>
    if c = '"' then { p with mode := .outside }
    else if c = '\\' then { p with mode := .escaped }
    else p
  | .outside =>
    if c = '"' then { p with mode := .quoted }
    else if c = '[' ∨ c = '\x7b' then { p with depth := p.depth + 1 }
    else if c = ']' ∨ c = '\x7d' then { p with depth := p.depth - 1 }
    else p

def after (p : Place) (text : List Char) : Place := text.foldl step p

/-- How deep inside a character stands. A bracket that closes an array or object is not inside of it. -/
def level (p : Place) (c : Char) : Nat := min p.depth (p.step c).depth

@[simp] theorem after_cons (p : Place) (c : Char) (text : List Char) : p.after (c :: text) = (p.step c).after text := rfl

@[simp] theorem after_append (p : Place) (text rest : List Char) : p.after (text ++ rest) = (p.after text).after rest :=
  List.foldl_append

end Place

def Lined (indent : Nat) (p : Place) (rest : List Char) : Prop :=
  ∃ c more, rest = List.replicate (indent * p.level c) ' ' ++ c :: more ∧ c ≠ ' '

def IndentedFrom (indent : Nat) (p : Place) (text : List Char) : Prop :=
  ∀ before rest, text = before ++ '\n' :: rest → Lined indent (p.after before) rest

/-- All lines but the first one are indented by `indent` spaces for every array and object that is open there, without
the one that the first character of the line may close. -/
def Indented (indent : Nat) (text : List Char) : Prop := IndentedFrom indent {} text

section

variable {indent : Nat} {p q r : Place}

theorem Lined.append {text : List Char} (lined : Lined indent p text) (rest : List Char) : Lined indent p (text ++ rest) := by
  obtain ⟨c, more, rfl, visible⟩ := lined
  exact ⟨c, more ++ rest, by simp, visible⟩

theorem indentedFrom_nil : IndentedFrom indent p [] := by simp [IndentedFrom]

theorem indentedFrom_cons {c : Char} {text : List Char} :
    IndentedFrom indent p (c :: text) ↔ (c = '\n' → Lined indent p text) ∧ IndentedFrom indent (p.step c) text := by
  constructor
  · refine fun all => ⟨fun line => all [] text (by rw [line, List.nil_append]), fun before rest same => ?_⟩
    exact all (c :: before) rest (by rw [same, List.cons_append])
  · rintro ⟨first, others⟩ before rest same
    cases before with
    | nil =>
      obtain ⟨rfl, rfl⟩ := List.cons.inj same
      exact first rfl
    | cons d before =>
      obtain ⟨rfl, rfl⟩ := List.cons.inj same
      exact others before rest rfl

theorem IndentedFrom.append {text rest : List Char} (first : IndentedFrom indent p text)
    (second : IndentedFrom indent (p.after text) rest) : IndentedFrom indent p (text ++ rest) := by
  induction text generalizing p with
  | nil => exact second
  | cons c text ih =>
    obtain ⟨line, others⟩ := indentedFrom_cons.mp first
    exact indentedFrom_cons.mpr ⟨fun same => (line same).append rest, ih others second⟩

theorem lined_iff {rest : List Char} : Lined indent p rest ↔ (rest.dropWhile (· = ' ')).head?.any
    (fun c => (rest.takeWhile (· = ' ')).length = indent * p.level c) = true := by
  simp only [Option.any_eq_true, decide_eq_true_eq]
  constructor
  · rintro ⟨c, more, rfl, visible⟩
    have spaces : ∀ d ∈ List.replicate (indent * p.level c) ' ', decide (d = ' ') = true := by simp
    refine ⟨c, ?_, ?_⟩
    · rw [List.dropWhile_append_of_pos spaces, List.dropWhile_cons_of_neg (by simpa using visible)]
      rfl
    · rw [List.takeWhile_append_of_pos spaces, List.takeWhile_cons_of_neg (by simpa using visible)]
      simp
  · rintro ⟨c, first, count⟩
    obtain ⟨more, behind⟩ := List.head?_eq_some_iff.mp first
    have spaces : rest.takeWhile (· = ' ') = List.replicate (indent * p.level c) ' ' :=
      List.eq_replicate_iff.mpr ⟨count, fun d member => of_decide_eq_true (List.mem_takeWhile_imp (p := fun d => decide (d = ' ')) member)⟩
    have visible := List.head?_dropWhile_not (fun d => decide (d = ' ')) rest
    rw [first] at visible
    exact ⟨c, more, by rw [← spaces, ← behind, List.takeWhile_append_dropWhile], by simpa using visible⟩

instance (rest : List Char) : Decidable (Lined indent p rest) := decidable_of_iff _ lined_iff.symm

instance decidableIndentedFrom (p : Place) : ∀ text : List Char, Decidable (IndentedFrom indent p text)
  | [] => isTrue indentedFrom_nil
  | c :: text =>
    have := decidableIndentedFrom (p.step c) text
    decidable_of_iff _ indentedFrom_cons.symm

instance (text : List Char) : Decidable (Indented indent text) := decidableIndentedFrom {} text

example : Indented 2 "[\n  1,\n  [\n    \"]\"\n  ]\n]".toList ∧ ¬Indented 2 "[\n  1\n  ]".toList := by decide +kernel

/-- The indented texts that lead from one place to another one. -/
def runs (indent : Nat) (p q : Place) : Language Char := {text | p.after text = q ∧ IndentedFrom indent p text}

theorem one_le_runs : 1 ≤ runs indent p p := by
  rintro _ rfl
  exact ⟨rfl, indentedFrom_nil⟩

theorem mul_runs_le : runs indent p q * runs indent q r ≤ runs indent p r := by
  rintro _ ⟨text, ⟨rfl, first⟩, rest, ⟨rfl, second⟩, rfl⟩
  exact ⟨Place.after_append p text rest, first.append second⟩

theorem mul_le_runs {one other : Language Char} (first : one ≤ runs indent p q) (second : other ≤ runs indent q r) :
    one * other ≤ runs indent p r :=
  (mul_le_mul' first second).trans mul_runs_le

theorem kstar_le_runs {one : Language Char} (each : one ≤ runs indent p p) : one∗ ≤ runs indent p p := by
  have all : 1 * one∗ ≤ runs indent p p := mul_kstar_le one_le_runs ((mul_le_mul_right each _).trans mul_runs_le)
  rwa [one_mul] at all

theorem pow_le_runs {one : Language Char} (each : one ≤ runs indent p p) (count : Nat) : one ^ count ≤ runs indent p p :=
  (pow_le_kstar).trans (kstar_le_runs each)

theorem singleton_mem_runs {c : Char} (inline : c ≠ '\n') : [c] ∈ runs indent p (p.step c) :=
  ⟨rfl, indentedFrom_cons.mpr ⟨fun same => absurd same inline, indentedFrom_nil⟩⟩

theorem singleton_le_runs {c : Char} (inline : c ≠ '\n') (leads : p.step c = q) : ({[c]} : Language Char) ≤ runs indent p q :=
  Set.singleton_subset_iff.mpr (leads ▸ singleton_mem_runs inline)

theorem oneOf_le_runs {among : Char → Prop} (inline : ∀ c, among c → c ≠ '\n') (leads : ∀ c, among c → p.step c = q) :
    oneOf among ≤ runs indent p q := by
  rintro _ ⟨c, holds, rfl⟩
  exact leads c holds ▸ singleton_mem_runs (inline c holds)

end

def balanced (indent depth : Nat) : Language Char := runs indent ⟨depth, .outside⟩ ⟨depth, .outside⟩

def values (indent depth : Nat) : Language Char :=
  {text | text ∈ balanced indent depth ∧ ∃ c more, text = c :: more ∧ c ∉ [' ', ']', '\x7d']}

def line (indent depth : Nat) : List Char := '\n' :: List.replicate (indent * depth) ' '

section

variable {indent depth : Nat} {one other : Language Char}

theorem values_le_balanced : values indent depth ≤ balanced indent depth := fun _ => And.left

theorem values_mul_le (more : other ≤ balanced indent depth) : values indent depth * other ≤ values indent depth := by
  rintro _ ⟨text, ⟨inside, c, front, rfl, first⟩, rest, behind, rfl⟩
  exact ⟨mul_runs_le ⟨_, inside, rest, more behind, rfl⟩, c, front ++ rest, rfl, first⟩

theorem cons_mem_values {c : Char} {text : List Char} (inside : c :: text ∈ balanced indent depth)
    (first : c ∉ [' ', ']', '\x7d']) : c :: text ∈ values indent depth := ⟨inside, c, text, rfl, first⟩

theorem indentedFrom_spaces {p : Place} (outside : p.mode = .outside) {text : List Char} (rest : IndentedFrom indent p text)
    (count : Nat) : IndentedFrom indent p (List.replicate count ' ' ++ text) := by
  have still : p.step ' ' = p := by simp [Place.step, outside]
  induction count with
  | zero => exact rest
  | succ count ih => exact indentedFrom_cons.mpr ⟨by simp, by rwa [still]⟩

theorem after_spaces {p : Place} (outside : p.mode = .outside) (count : Nat) : p.after (List.replicate count ' ') = p := by
  have still : p.step ' ' = p := by simp [Place.step, outside]
  induction count with
  | zero => rfl
  | succ count ih => rwa [List.replicate_succ, Place.after_cons, still]

theorem line_append_mem_runs {p q : Place} (outside : p.mode = .outside) {c : Char} {text : List Char}
    (rest : c :: text ∈ runs indent p q) (level : p.level c = depth) (visible : c ≠ ' ') :
    line indent depth ++ c :: text ∈ runs indent p q := by
  obtain ⟨leads, indented⟩ := rest
  have still : p.step '\n' = p := by simp [Place.step, outside]
  constructor
  · rw [line, List.cons_append, Place.after_cons, still, Place.after_append, after_spaces outside, leads]
  · refine indentedFrom_cons.mpr ⟨fun _ => ⟨c, text, by rw [level]; rfl, visible⟩, ?_⟩
    rw [still]
    exact indentedFrom_spaces outside indented _

theorem line_mul_values_le : {line indent depth} * values indent depth ≤ balanced indent depth := by
  rintro _ ⟨_, rfl, _, ⟨inside, c, text, rfl, first⟩, rfl⟩
  have level : Place.level ⟨depth, .outside⟩ c = depth := by
    unfold Place.level Place.step
    dsimp only
    split_ifs with _ _ closing
    · exact min_self depth
    · exact min_eq_left (Nat.le_succ depth)
    · rcases closing with rfl | rfl <;> simp at first
    · exact min_self depth
  refine line_append_mem_runs rfl inside level ?_
  rintro rfl
  simp at first

section

variable {left right : Char} (opening : left = '[' ∨ left = '\x7b') (closing : right = ']' ∨ right = '\x7d')

include opening in
theorem opened_le_values {inside : Language Char} (within : inside ≤ runs indent ⟨depth + 1, .outside⟩ ⟨depth, .outside⟩) :
    {[left]} * inside ≤ values indent depth := by
  have start : ({[left]} : Language Char) ≤ runs indent ⟨depth, .outside⟩ ⟨depth + 1, .outside⟩ := by
    rcases opening with rfl | rfl <;> exact singleton_le_runs (by decide) (by simp [Place.step])
  rintro _ ⟨_, rfl, text, among, rfl⟩
  refine cons_mem_values (mul_le_runs start within ⟨_, rfl, text, among, rfl⟩) ?_
  rcases opening with rfl | rfl <;> simp

include closing in
theorem closing_le_runs : ({[right]} : Language Char) ≤ runs indent ⟨depth + 1, .outside⟩ ⟨depth, .outside⟩ := by
  rcases closing with rfl | rfl <;> exact singleton_le_runs (by decide) (by simp [Place.step])

include opening closing

theorem bracketed_le_values {inside : Language Char} (within : inside ≤ balanced indent (depth + 1)) :
    {[left]} * inside * {[right]} ≤ values indent depth := by
  rw [mul_assoc]
  exact opened_le_values opening (mul_le_runs within (closing_le_runs closing))

theorem lines_le_values {inside : Language Char} (within : inside ≤ values indent (depth + 1)) :
    {[left]} * {line indent (depth + 1)} * inside * {line indent depth} * {[right]} ≤ values indent depth := by
  have last : {line indent depth} * {[right]} ≤ runs indent ⟨depth + 1, .outside⟩ ⟨depth, .outside⟩ := by
    rintro _ ⟨_, rfl, _, rfl, rfl⟩
    have level : Place.level ⟨depth + 1, .outside⟩ right = depth := by
      rcases closing with rfl | rfl <;> simp [Place.level, Place.step]
    refine line_append_mem_runs rfl (closing_le_runs closing rfl) level ?_
    rcases closing with rfl | rfl <;> decide
  have deeper : {line indent (depth + 1)} * inside ≤ balanced indent (depth + 1) :=
    (mul_le_mul_right within _).trans line_mul_values_le
  have all := opened_le_values opening (mul_le_runs deeper last)
  simpa only [mul_assoc] using all

end

def isPlain (c : Char) : Bool := !(['\n', '"', '[', '\x7b', ']', '\x7d'].contains c)

theorem singleton_mem_balanced {c : Char} (plain : isPlain c = true) : [c] ∈ balanced indent depth := by
  simp [isPlain] at plain
  have still : Place.step ⟨depth, .outside⟩ c = ⟨depth, .outside⟩ := by simp [Place.step, plain]
  exact singleton_le_runs plain.1 still rfl

theorem mem_balanced {text : List Char} (plain : ∀ c ∈ text, isPlain c = true) : text ∈ balanced indent depth := by
  have each : (oneOf fun c => isPlain c = true) ≤ balanced indent depth := by
    rintro _ ⟨c, plain, rfl⟩
    exact singleton_mem_balanced plain
  exact kstar_le_runs each (JsonSyntax.mem_kstar_oneOf.mpr plain)

theorem isPlain_of_isInner {c : Char} (inner : isInner c = true) : isPlain c = true ∧ c ∉ [' ', ']', '\x7d'] := by
  simp [isInner, JsonSyntax.isStop] at inner
  simp [isPlain, inner]

theorem inner_le_values {language : Language Char} (inside : language ≤ JsonSyntax.inner)
    (some : language ≤ JsonSyntax.visible) : language ≤ values indent depth := by
  intro text among
  obtain ⟨_, member, _⟩ := some among
  obtain ⟨c, rest, rfl⟩ := List.exists_cons_of_ne_nil (List.ne_nil_of_mem member)
  have plain : ∀ d ∈ c :: rest, isInner d = true := JsonSyntax.mem_kstar_oneOf.mp (inside among)
  exact cons_mem_values (mem_balanced fun d member => (isPlain_of_isInner (plain d member)).1)
    (isPlain_of_isInner (plain c List.mem_cons_self)).2

theorem number_le_values : JsonSyntax.number ≤ values indent depth :=
  inner_le_values JsonSyntax.number_le_inner JsonSyntax.number_le_visible

theorem boolean_le_values : JsonSyntax.boolean ≤ values indent depth :=
  inner_le_values JsonSyntax.boolean_le_inner JsonSyntax.boolean_le_visible

theorem null_le_values : JsonSyntax.null ≤ values indent depth :=
  inner_le_values JsonSyntax.null_le_inner JsonSyntax.null_le_visible

theorem character_le_runs : JsonSyntax.character ≤ runs indent ⟨depth, .quoted⟩ ⟨depth, .quoted⟩ := by
  have escaped {among : Char → Prop} (inline : ∀ c, among c → c ≠ '\n') :
      oneOf among ≤ runs indent ⟨depth, .escaped⟩ ⟨depth, .quoted⟩ := oneOf_le_runs inline fun _ _ => rfl
  have hexDigits : JsonSyntax.hexDigit ^ 4 ≤ runs indent ⟨depth, .quoted⟩ ⟨depth, .quoted⟩ := by
    have mark (sign : Char) (outside : ¬('0' ≤ sign ∧ sign ≤ '9' ∨ 'a' ≤ sign ∧ sign ≤ 'f' ∨ 'A' ≤ sign ∧ sign ≤ 'F'))
        {c : Char} (digit : '0' ≤ c ∧ c ≤ '9' ∨ 'a' ≤ c ∧ c ≤ 'f' ∨ 'A' ≤ c ∧ c ≤ 'F') : c ≠ sign :=
      fun same => outside (same ▸ digit)
    refine pow_le_runs (oneOf_le_runs (fun c => mark '\n' (by decide)) fun c digit => ?_) 4
    simp [Place.step, mark '"' (by decide) digit, mark '\\' (by decide) digit]
  apply add_le
  · refine oneOf_le_runs ?_ fun c plain => by simp [Place.step, plain.2]
    rintro c ⟨high, _⟩ rfl
    exact absurd high (by decide)
  · have backslash : ({['\\']} : Language Char) ≤ runs indent ⟨depth, .quoted⟩ ⟨depth, .escaped⟩ :=
      singleton_le_runs (by decide) (by simp [Place.step])
    refine mul_le_runs backslash (add_le (escaped ?_) (mul_le_runs (singleton_le_runs (by decide) rfl) hexDigits))
    rintro c member rfl
    simp at member

theorem string_le_values : JsonSyntax.string ≤ values indent depth := by
  have mark (p q : Place) (leads : p.step '"' = q) : ({['"']} : Language Char) ≤ runs indent p q :=
    singleton_le_runs (by decide) leads
  rintro _ ⟨_, ⟨_, rfl, inside, characters, rfl⟩, _, rfl, rfl⟩
  have start := mark ⟨depth, .outside⟩ ⟨depth, .quoted⟩ (by simp [Place.step])
  have stop := mark ⟨depth, .quoted⟩ ⟨depth, .outside⟩ (by simp [Place.step])
  have whole := mul_le_runs (mul_le_runs start (kstar_le_runs character_le_runs)) stop
  exact cons_mem_values (whole ⟨_, ⟨_, rfl, inside, characters, rfl⟩, _, rfl, rfl⟩) (by simp)

/-- A value with nothing but spaces around its brackets, commas and colons has no lines that could be indented. -/
theorem inline_le_values : JsonSyntax.texts (· = ' ') .value ≤ values indent depth := by
  let sets (part : JsonSyntax.Part) : Language Char :=
    match part with
    | .value | .object | .array => {text | ∀ depth, text ∈ values indent depth}
    | _ => {text | ∀ depth, text ∈ balanced indent depth}
  have anywhere : sets .value ≤ values indent depth := fun _ within => within depth
  have part (part : JsonSyntax.Part) (depth : Nat) : sets part ≤ balanced indent depth := by
    cases part <;> first
      | exact fun _ within => within depth
      | exact fun _ within => values_le_balanced (within depth)
  have blanks (depth : Nat) : JsonSyntax.blanks (· = ' ') ≤ balanced indent depth := by
    intro text spaces
    refine mem_balanced fun c member => ?_
    rw [JsonSyntax.mem_blanks.mp spaces c member]
    decide
  have separator (sign : Char) (plain : isPlain sign = true) (depth : Nat) :
      JsonSyntax.blanks (· = ' ') * {[sign]} * JsonSyntax.blanks (· = ' ') ≤ balanced indent depth :=
    mul_le_runs (mul_le_runs (blanks depth) (Set.singleton_subset_iff.mpr (singleton_mem_balanced plain))) (blanks depth)
  refine (JsonSyntax.texts_least ?_ ?_ ?_ ?_ ?_ ?_ JsonSyntax.Part.value).trans anywhere
  · intro text among depth
    have nested : sets .object + sets .array ≤ values indent depth :=
      add_le (fun _ within => within depth) fun _ within => within depth
    have scalars : JsonSyntax.string + JsonSyntax.number + JsonSyntax.boolean + JsonSyntax.null ≤ values indent depth :=
      add_le (add_le (add_le string_le_values number_le_values) boolean_le_values) null_le_values
    rw [add_assoc] at among
    exact add_le scalars nested among
  · exact fun text among depth => bracketed_le_values (.inr rfl) (.inr rfl) (part (.contents .member) (depth + 1)) among
  · exact fun text among depth => bracketed_le_values (.inl rfl) (.inl rfl) (part (.contents .value) (depth + 1)) among
  · intro text among depth
    have key : JsonSyntax.string ≤ balanced indent depth := string_le_values.trans values_le_balanced
    exact mul_le_runs (mul_le_runs key (separator ':' (by decide) depth)) (part .value depth) among
  · intro of text among depth
    exact add_le (blanks depth) (mul_le_runs (mul_le_runs (blanks depth) (part (.list of) depth)) (blanks depth)) among
  · intro of text among depth
    have more := mul_le_runs (part (.list of) depth) (mul_le_runs (separator ',' (by decide) depth) (part of depth))
    exact add_le (part of depth) more among

end

theorem indented_of_mem_values {indent : Nat} {text : List Char} (value : text ∈ values indent 0) : Indented indent text :=
  value.1.2

end GuidedDecoding.Indentation
