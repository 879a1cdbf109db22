import Mathlib
import GuidedDecoding.Proofs.Grammar.Texts
import GuidedDecoding.Proofs.Json.Syntax
import GuidedDecoding.Proofs.Schema.Fragment
import GuidedDecoding.Schema.CommonRules

open scoped Computability

namespace GuidedDecoding

open JsonSyntax (oneOf mem_oneOf)

namespace Fragment

section

variable (rules : String → Language Char)

def denotes (f : Fragment) : Language Char := f.expr.denotes rules

def denotesSequence (pieces : List Fragment) : Language Char := Expr.denotesAll rules (exprSequence pieces)

def denotesAlternatives (alternatives : List (List Fragment)) : Language Char :=
  Expr.denotesAny rules (exprAlternatives alternatives)

@[simp] theorem denotesSequence_nil : denotesSequence rules [] = 1 := rfl

@[simp] theorem denotesSequence_cons (f : Fragment) (pieces : List Fragment) :
    denotesSequence rules (f :: pieces) = denotes rules f * denotesSequence rules pieces := rfl

@[simp] theorem denotesSequence_append (one other : List Fragment) :
    denotesSequence rules (one ++ other) = denotesSequence rules one * denotesSequence rules other := by
  induction one with
  | nil => rw [List.nil_append, denotesSequence_nil, one_mul]
  | cons f one ih => rw [List.cons_append, denotesSequence_cons, ih, denotesSequence_cons, mul_assoc]

@[simp] theorem denotesAlternatives_nil : denotesAlternatives rules [] = 0 := rfl

@[simp] theorem denotesAlternatives_cons (pieces : List Fragment) (alternatives : List (List Fragment)) :
    denotesAlternatives rules (pieces :: alternatives) =
      denotesSequence rules pieces + denotesAlternatives rules alternatives := by
  rw [denotesAlternatives, exprAlternatives, Expr.denotesAny, Expr.denotes_single_sequence]
  rfl

@[simp] theorem denotes_ofText (text : List Char) : denotes rules (ofText text) = {text} := by
  rw [denotes, ofText, expr, Expr.denotes_literal]

@[simp] theorem denotes_rule (name : String) : denotes rules (rule name) = rules name := by
  rw [denotes, expr, Expr.denotes]

@[simp] theorem denotes_group (alternatives : List (List Fragment)) :
    denotes rules (group alternatives) = denotesAlternatives rules alternatives := by
  rw [denotes, expr, Expr.denotes_single_choice]
  rfl

@[simp] theorem denotes_optional (f : Fragment) : denotes rules (optional f) = 1 + denotes rules f := by
  rw [denotes, optional, expr, Expr.denotes_optional]
  rfl

@[simp] theorem denotes_many (f : Fragment) : denotes rules (many f) = (denotes rules f)∗ := by
  rw [denotes, many, expr, Expr.denotes_many]
  rfl

theorem denotes_some (f : Fragment) :
    denotes rules (repeated f 1 none) = denotes rules f * (denotes rules f)∗ := by
  rw [denotes, expr, Expr.denotes_some]
  rfl

theorem denotes_exactly (f : Fragment) (count : Nat) :
    denotes rules (repeated f count (some count)) = denotes rules f ^ count := by
  rw [denotes, expr, Expr.denotes_exactly]
  rfl

@[simp] theorem denotes_empty : denotes rules empty = 1 := denotes_ofText rules []

theorem denotes_bounded_le (f : Fragment) (min : Nat) (max : Option Nat) :
    denotes rules (bounded f min max) ≤ (denotes rules f)∗ := by
  unfold bounded
  split
  · rw [denotes_empty]
    exact one_le_kstar
  · rw [denotes, expr]
    exact Expr.denotes_repetition_le f.expr min max

theorem denotesAlternatives_le {alternatives : List (List Fragment)} {language : Language Char}
    (each : ∀ pieces ∈ alternatives, denotesSequence rules pieces ≤ language) :
    denotesAlternatives rules alternatives ≤ language := by
  induction alternatives with
  | nil => exact bot_le
  | cons pieces alternatives ih =>
    rw [denotesAlternatives_cons]
    exact add_le (each pieces (by simp)) (ih fun p member => each p (by simp [member]))

end

def IsClass (inside : String) (p : Char → Prop) : Prop :=
  ∃ negated ranges, (∀ rest, Token.read '[' (inside.toList ++ ']' :: rest) = (.charClass negated ranges, rest)) ∧
    ∀ c : Char, (CodeRange.CoversSwapped ranges c.toNat ↔ negated = false) ↔ p c

theorem IsClass.spelled {inside : String} {p : Char → Prop} (isClass : IsClass inside p) :
    (charClass inside).Spelled := by
  obtain ⟨_, _, read, _⟩ := isClass
  exact .charClass read

theorem IsClass.denotes {inside : String} {p : Char → Prop} (isClass : IsClass inside p)
    (rules : String → Language Char) : (charClass inside).denotes rules = oneOf p := by
  obtain ⟨negated, ranges, read, covers⟩ := isClass
  ext text
  rw [Fragment.denotes, expr, classExpr_eq read, Expr.mem_denotes_charClass, mem_oneOf]
  simp only [covers]

def classes : List (String × Bool × List CodeRange) :=
  [("0-9", false, [⟨48, 57⟩]),
    ("1-9", false, [⟨49, 57⟩]),
    ("A-Fa-f0-9", false, [⟨65, 70⟩, ⟨97, 102⟩, ⟨48, 57⟩]),
    ("\"\\\\/bfnrt", false, [⟨34, 34⟩, ⟨92, 92⟩, ⟨47, 47⟩, ⟨98, 98⟩, ⟨102, 102⟩, ⟨110, 110⟩, ⟨114, 114⟩, ⟨116, 116⟩]),
    ("^\"\\\\\\x00-\\x1f", true, [⟨34, 34⟩, ⟨92, 92⟩, ⟨0, 31⟩]),
    ("eE", false, [⟨101, 101⟩, ⟨69, 69⟩]),
    ("+-", false, [⟨43, 43⟩, ⟨45, 45⟩]),
    (" \\n\\t", false, [⟨32, 32⟩, ⟨10, 10⟩, ⟨9, 9⟩])]

theorem read_class {inside : String} {negated : Bool} {ranges : List CodeRange}
    (listed : (inside, negated, ranges) ∈ classes) (rest : List Char) :
    Token.read '[' (inside.toList ++ ']' :: rest) = (.charClass negated ranges, rest) := by
  have all : ∀ entry ∈ classes,
      Token.read '[' (entry.1.toList ++ ']' :: rest) = (.charClass entry.2.1 entry.2.2, rest) := by
    simp only [classes, List.forall_mem_cons]
    refine ⟨?_, ?_, ?_, ?_, ?_, ?_, ?_, ?_, by simp⟩ <;> cbv
  exact all _ listed

theorem isClass_digit : IsClass "0-9" fun c => '0' ≤ c ∧ c ≤ '9' := by
  refine ⟨false, [⟨48, 57⟩], read_class (by simp [classes]), fun c => ?_⟩
  change _ ↔ 48 ≤ c.toNat ∧ c.toNat ≤ 57
  simp [CodeRange.CoversSwapped]
  omega

theorem isClass_leading : IsClass "1-9" fun c => '1' ≤ c ∧ c ≤ '9' := by
  refine ⟨false, [⟨49, 57⟩], read_class (by simp [classes]), fun c => ?_⟩
  change _ ↔ 49 ≤ c.toNat ∧ c.toNat ≤ 57
  simp [CodeRange.CoversSwapped]
  omega

theorem isClass_hexDigit :
    IsClass "A-Fa-f0-9" fun c => '0' ≤ c ∧ c ≤ '9' ∨ 'a' ≤ c ∧ c ≤ 'f' ∨ 'A' ≤ c ∧ c ≤ 'F' := by
  refine ⟨false, [⟨65, 70⟩, ⟨97, 102⟩, ⟨48, 57⟩], read_class (by simp [classes]), fun c => ?_⟩
  change _ ↔ 48 ≤ c.toNat ∧ c.toNat ≤ 57 ∨ 97 ≤ c.toNat ∧ c.toNat ≤ 102 ∨ 65 ≤ c.toNat ∧ c.toNat ≤ 70
  simp [CodeRange.CoversSwapped]
  omega

theorem isClass_escape : IsClass "\"\\\\/bfnrt" (· ∈ ['"', '\\', '/', 'b', 'f', 'n', 'r', 't']) := by
  refine ⟨false, [⟨34, 34⟩, ⟨92, 92⟩, ⟨47, 47⟩, ⟨98, 98⟩, ⟨102, 102⟩, ⟨110, 110⟩, ⟨114, 114⟩, ⟨116, 116⟩],
    read_class (by simp [classes]), fun c => ?_⟩
  simp [CodeRange.CoversSwapped, ← Char.toNat_inj]
  omega

theorem isClass_plain : IsClass "^\"\\\\\\x00-\\x1f" fun c => 0x20 ≤ c.toNat ∧ c ≠ '"' ∧ c ≠ '\\' := by
  refine ⟨true, [⟨34, 34⟩, ⟨92, 92⟩, ⟨0, 31⟩], read_class (by simp [classes]), fun c => ?_⟩
  simp [CodeRange.CoversSwapped, ← Char.toNat_inj]
  omega

theorem isClass_exponent : IsClass "eE" (· ∈ ['e', 'E']) := by
  refine ⟨false, [⟨101, 101⟩, ⟨69, 69⟩], read_class (by simp [classes]), fun c => ?_⟩
  simp [CodeRange.CoversSwapped, ← Char.toNat_inj]
  omega

theorem isClass_sign : IsClass "+-" (· ∈ ['+', '-']) := by
  refine ⟨false, [⟨43, 43⟩, ⟨45, 45⟩], read_class (by simp [classes]), fun c => ?_⟩
  simp [CodeRange.CoversSwapped, ← Char.toNat_inj]
  omega

theorem isClass_blank : IsClass " \\n\\t" (· ∈ [' ', '\n', '\t']) := by
  refine ⟨false, [⟨32, 32⟩, ⟨10, 10⟩, ⟨9, 9⟩], read_class (by simp [classes]), fun c => ?_⟩
  simp [CodeRange.CoversSwapped, ← Char.toNat_inj]
  omega

section

open CommonRules (digits someDigits whole quotationMark)

variable (rules : String → Language Char)

theorem denotes_digits : denotes rules digits = JsonSyntax.digit := isClass_digit.denotes rules

theorem denotes_someDigits : denotes rules someDigits = JsonSyntax.digits := by
  rw [someDigits, denotes_some, denotes_digits]
  rfl

theorem denotesSequence_whole : denotesSequence rules whole = JsonSyntax.integer := by
  simp only [whole, denotesSequence_cons, denotesSequence_nil, denotes_optional, denotes_ofText, denotes_group,
    denotesAlternatives_cons, denotesAlternatives_nil, isClass_leading.denotes, denotes_many, denotes_digits,
    mul_one, add_zero]
  rfl

theorem denotes_fraction : denotes rules (group [[ofText ['.'], someDigits]]) = JsonSyntax.fraction := by
  simp only [denotes_group, denotesAlternatives_cons, denotesAlternatives_nil, denotesSequence_cons,
    denotesSequence_nil, denotes_ofText, denotes_someDigits, mul_one, add_zero]
  rfl

theorem denotes_exponent :
    denotes rules (group [[charClass "eE", optional (charClass "+-"), someDigits]]) = JsonSyntax.exponent := by
  simp only [denotes_group, denotesAlternatives_cons, denotesAlternatives_nil, denotesSequence_cons,
    denotesSequence_nil, isClass_exponent.denotes, denotes_optional, isClass_sign.denotes, denotes_someDigits,
    mul_one, add_zero, ← mul_assoc]
  rfl

theorem denotesSequence_number :
    denotesSequence rules (whole ++ [optional (group [[ofText ['.'], someDigits]]),
      optional (group [[charClass "eE", optional (charClass "+-"), someDigits]])]) = JsonSyntax.number := by
  rw [denotesSequence_append, denotesSequence_whole, denotesSequence_cons, denotesSequence_cons,
    denotesSequence_nil, denotes_optional, denotes_optional, denotes_fraction, denotes_exponent, mul_one,
    ← mul_assoc]
  rfl

theorem denotesAlternatives_escape :
    denotesAlternatives rules
        [[charClass "\"\\\\/bfnrt"], [ofText ['u'], .repeated (charClass "A-Fa-f0-9") 4 (some 4)]] =
      JsonSyntax.escape := by
  simp only [denotesAlternatives_cons, denotesAlternatives_nil, denotesSequence_cons, denotesSequence_nil,
    isClass_escape.denotes, denotes_ofText, denotes_exactly, isClass_hexDigit.denotes, mul_one, add_zero]
  rfl

theorem denotesAlternatives_character {escape : String} (known : rules escape = JsonSyntax.escape) :
    denotesAlternatives rules [[charClass "^\"\\\\\\x00-\\x1f"], [ofText ['\\'], rule escape]] =
      JsonSyntax.character := by
  simp only [denotesAlternatives_cons, denotesAlternatives_nil, denotesSequence_cons, denotesSequence_nil,
    isClass_plain.denotes, denotes_ofText, denotes_rule, known, mul_one, add_zero]
  rfl

theorem denotesSequence_string {character : String} (known : rules character = JsonSyntax.character) :
    denotesSequence rules [quotationMark, many (rule character), quotationMark] = JsonSyntax.string := by
  rw [quotationMark, denotesSequence_cons, denotesSequence_cons, denotesSequence_cons, denotesSequence_nil,
    denotes_ofText, denotes_many, denotes_rule, known, mul_one, ← mul_assoc]
  rfl

end

end Fragment

namespace FragmentRule

section

variable {rules : List FragmentRule}

theorem denotes_definition (sets : String → Language Char) (rule : FragmentRule) :
    rule.definition.body.denotes sets = Fragment.denotesAlternatives sets rule.alternatives :=
  Expr.denotes_single_choice _

theorem texts_eq (distinct : (rules.map name).Nodup) {rule : FragmentRule} (member : rule ∈ rules) :
    Definition.texts (rules.map definition) rule.name =
      Fragment.denotesAlternatives (Definition.texts (rules.map definition)) rule.alternatives := by
  have names : (rules.map definition).map Definition.name = rules.map name := by
    rw [List.map_map]
    rfl
  rw [← denotes_definition]
  exact Definition.texts_eq (names ▸ distinct) (List.mem_map_of_mem member)

theorem texts_le {sets : String → Language Char}
    (allowed : ∀ rule ∈ rules, Fragment.denotesAlternatives sets rule.alternatives ≤ sets rule.name) :
    Definition.texts (rules.map definition) ≤ sets := by
  apply Definition.texts_le
  intro d member
  obtain ⟨rule, among, rfl⟩ := List.mem_map.mp member
  rw [denotes_definition]
  exact allowed rule among

/-- The automaton of the text of rules accepts the encodings of the texts that the rules give the main rule. -/
theorem accepting_iff_encoded (inhabited : rules ≠ []) (spelled : ∀ r ∈ rules, r.Spelled)
    {settings : GrammarSettings} {grammar : Grammar}
    (compiled : Grammar.ofText (rules.flatMap text) settings = .ok grammar) :
    (rules.map name).Nodup ∧
      ∀ w : List UInt8, (w.foldl grammar.automaton.step grammar.automaton.initial).accepting = true ↔
        w ∈ encoded (Definition.texts (rules.map definition) settings.mainRule) := by
  have written : Grammar.compile (String.ofList (rules.flatMap text)) settings = .ok grammar := by
    rw [Grammar.compile, String.toList_ofList]
    exact compiled
  obtain ⟨definitions, read, distinct, accepted⟩ := Grammar.accepting_iff_encoded written
  have same : rules.map definition = definitions := by
    rw [String.toList_ofList] at read
    exact ((Definition.read_texts inhabited spelled).mp read).2
  rw [← same, List.map_map] at distinct
  rw [← same] at accepted
  exact ⟨distinct, accepted⟩

end

end FragmentRule

end GuidedDecoding
