import Mathlib
import GuidedDecoding.Proofs.Grammar.Progress
import GuidedDecoding.Proofs.Json.Syntax

open scoped Computability

namespace GuidedDecoding

namespace Token

def IsLetter (c : Char) : Prop := 'A' ≤ c ∧ c ≤ 'Z' ∨ 'a' ≤ c ∧ c ≤ 'z'

def names : Language Char :=
  JsonSyntax.oneOf (fun c => IsLetter c ∨ c = '_') *
    (JsonSyntax.oneOf fun c => IsLetter c ∨ '0' ≤ c ∧ c ≤ '9' ∨ c ∈ ['_', '.', '-'])∗

theorem isAlpha_iff {c : Char} : c.isAlpha = true ↔ IsLetter c := by
  simp [Char.isAlpha, Char.isUpper, Char.isLower, IsLetter, Char.le_def]

theorem isNameStart_iff {c : Char} : isNameStart c = true ↔ IsLetter c ∨ c = '_' := by
  rw [isNameStart, Bool.or_eq_true, isAlpha_iff, beq_iff_eq]

theorem isNamePart_iff {c : Char} :
    isNamePart c = true ↔ IsLetter c ∨ '0' ≤ c ∧ c ≤ '9' ∨ c ∈ ['_', '.', '-'] := by
  have digit : c.isDigit = true ↔ '0' ≤ c ∧ c ≤ '9' := by simp [Char.isDigit, Char.le_def]
  simp only [isNamePart, Char.isAlphanum, Bool.or_eq_true, isAlpha_iff, digit, beq_iff_eq, List.mem_cons,
    List.not_mem_nil, or_false]
  tauto

theorem mem_names {name : String} : name.toList ∈ names ↔ IsName name := by
  rw [names, Language.mem_mul]
  constructor
  · intro h
    obtain ⟨_, ⟨c, first, rfl⟩, part, others, spelled⟩ := h
    exact ⟨c, part, spelled.symm, isNameStart_iff.mpr first, fun d member =>
      isNamePart_iff.mpr (JsonSyntax.mem_kstar_oneOf.mp others d member)⟩
  · intro h
    obtain ⟨c, part, spelled, first, others⟩ := h
    exact ⟨[c], ⟨c, isNameStart_iff.mp first, rfl⟩, part, JsonSyntax.mem_kstar_oneOf.mpr fun d member =>
      isNamePart_iff.mp (others d member), spelled.symm⟩

end Token

namespace Expr

/-- Names are names, nothing stands alone in a sequence or in a choice, the bounds of classes and repetitions are in order
and those of repetitions are within their limit, and literals are texts. -/
inductive WellFormed : Expr String → Prop where
  | literal (text : List Char) : WellFormed (.literal (Utf8.encode text))
  | charClass (negated : Bool) {ranges : List CodeRange} (inhabited : ranges ≠ [])
    (ordered : ∀ range ∈ ranges, range.lo ≤ range.hi) : WellFormed (.charClass negated ranges)
  | rule {name : String} (spelled : name.toList ∈ Token.names) : WellFormed (.rule name)
  | sequence {items : List (Expr String)} (several : 2 ≤ items.length) (each : ∀ e ∈ items, WellFormed e) :
    WellFormed (.sequence items)
  | choice {alternatives : List (Expr String)} (several : 2 ≤ alternatives.length)
    (each : ∀ e ∈ alternatives, WellFormed e) : WellFormed (.choice alternatives)
  | repetition {body : Expr String} {min : Nat} {max : Option Nat} (low : min ≤ 65536)
    (high : ∀ bound ∈ max, min ≤ bound ∧ bound ≤ 65536) (inside : WellFormed body) :
    WellFormed (.repetition body min max)

theorem wellFormed_of_standard {e : Expr String} (standard : e.AllStandard) : e.WellFormed := by
  induction standard with
  | @intro e here _ inside =>
    cases e with
    | empty => exact here.elim
    | literal bytes =>
      obtain ⟨text, rfl⟩ := here
      exact .literal text
    | charClass negated ranges => exact .charClass negated here.1 fun range member => (here.2 range member).order
    | rule name => exact .rule (Token.mem_names.mpr here)
    | sequence items => exact .sequence here inside
    | choice alternatives => exact .choice here inside
    | repetition body min max => exact .repetition here.1 here.2 (inside body (List.mem_singleton_self body))

end Expr

namespace Definition

structure WellFormed (definition : Definition) : Prop where
  name : definition.name.toList ∈ Token.names
  body : definition.body.WellFormed

/-- Reading takes the tokens of a text one after the other, which are no more than its characters, and ends either with a
fault at some place of the text or with rules that are all well formed. -/
theorem wellFormed_of_read (text : List Char) :
    (Token.Laid text (Token.scan text) ∧ (Token.scan text).length ≤ text.length) ∧
      ((∃ fault, read text = .error fault ∧ fault.rest <:+ text) ∨
        ∃ definitions, read text = .ok definitions ∧ definitions ≠ [] ∧ ∀ d ∈ definitions, d.WellFormed) := by
  have laid : Token.Laid text (Token.scan text) := Token.laid_scanFrom true text
  refine ⟨⟨laid, laid.length_le⟩, ?_⟩
  rcases read_cases text with failed | ⟨definitions, found, inhabited⟩
  · exact .inl failed
  · refine .inr ⟨definitions, found, inhabited, fun d member => ?_⟩
    have standard := standard_of_read found d member
    exact ⟨Token.mem_names.mpr standard.name, Expr.wellFormed_of_standard standard.body⟩

end Definition

end GuidedDecoding
