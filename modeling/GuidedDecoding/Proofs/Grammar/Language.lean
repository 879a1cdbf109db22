import Mathlib
import GuidedDecoding.Grammar.Basic
import GuidedDecoding.Proofs.Text.CodeRange

namespace GuidedDecoding

namespace Expr

@[elab_as_elim]
theorem structural {ref : Type} {motive : Expr ref → Prop}
    (empty : motive .empty)
    (literal : ∀ bytes, motive (.literal bytes))
    (charClass : ∀ negated ranges, motive (.charClass negated ranges))
    (rule : ∀ target, motive (.rule target))
    (sequence : ∀ items, (∀ e ∈ items, motive e) → motive (.sequence items))
    (choice : ∀ alternatives, (∀ e ∈ alternatives, motive e) → motive (.choice alternatives))
    (repetition : ∀ body min max, motive body → motive (.repetition body min max))
    (e : Expr ref) : motive e :=
  @Expr.rec ref motive (fun es => ∀ e ∈ es, motive e)
    empty literal charClass rule sequence choice repetition (by simp)
    (fun e es head tail => by simpa using ⟨head, tail⟩) e

/-- How often the body of a repetition may occur. A `most` below `least` counts as `least`. -/
def Repeats (least : Nat) (most : Option Nat) (count : Nat) : Prop :=
  least ≤ count ∧ ∀ bound ∈ most, count ≤ max least bound

mutual

/-- The byte strings an expression matches when `rules` tells which ones the rules match. -/
def language (rules : RuleId → Language UInt8) : Expr RuleId → Language UInt8
  | empty => 1
  | literal bytes => {bytes}
  | charClass negated ranges =>
    {bytes | ∃ c : Char, (CodeRange.CoversSwapped ranges c.toNat ↔ negated = false) ∧
      String.utf8EncodeChar c = bytes}
  | rule r => rules r
  | sequence items => languageAll rules items
  | choice alternatives => languageAny rules alternatives
  | repetition body min max => {bytes | ∃ n, Repeats min max n ∧ bytes ∈ language rules body ^ n}

def languageAll (rules : RuleId → Language UInt8) : List (Expr RuleId) → Language UInt8
  | [] => 1
  | e :: rest => language rules e * languageAll rules rest

def languageAny (rules : RuleId → Language UInt8) : List (Expr RuleId) → Language UInt8
  | [] => 0
  | e :: rest => language rules e + languageAny rules rest

end

variable {rules : RuleId → Language UInt8}

theorem mem_language_charClass (negated : Bool) (ranges : List CodeRange) (w : List UInt8) :
    w ∈ language rules (.charClass negated ranges) ↔
      ∃ c : Char, (CodeRange.CoversSwapped ranges c.toNat ↔ negated = false) ∧
        String.utf8EncodeChar c = w := by
  rw [language]
  rfl

theorem mem_languageAny (alternatives : List (Expr RuleId)) (w : List UInt8) :
    w ∈ languageAny rules alternatives ↔ ∃ e ∈ alternatives, w ∈ language rules e := by
  induction alternatives with
  | nil => simp [languageAny]
  | cons e rest ih => simp [languageAny, Language.mem_add, ih]

theorem mem_language_repetition (body : Expr RuleId) (min : Nat) (max : Option Nat) (w : List UInt8) :
    w ∈ language rules (.repetition body min max) ↔
      ∃ n, Repeats min max n ∧ w ∈ language rules body ^ n := by
  rw [language]
  rfl

theorem language_mono {rules more : RuleId → Language UInt8} (h : rules ≤ more) (e : Expr RuleId) :
    language rules e ≤ language more e := by
  induction e using structural with
  | empty | literal => rw [language, language]
  | charClass negated ranges =>
    intro w member
    exact (mem_language_charClass negated ranges w).mpr
      ((mem_language_charClass negated ranges w).mp member)
  | rule target => rw [language, language]; exact h target
  | sequence items ih =>
    rw [language, language]
    induction items with
    | nil => rw [languageAll, languageAll]
    | cons e rest tail =>
      rw [languageAll, languageAll]
      exact mul_le_mul' (ih e (by simp)) (tail fun e member => ih e (by simp [member]))
  | choice alternatives ih =>
    intro w member
    rw [language] at member ⊢
    obtain ⟨e, among, inside⟩ := (mem_languageAny alternatives w).mp member
    exact (mem_languageAny alternatives w).mpr ⟨e, among, ih e among inside⟩
  | repetition body min max ih =>
    intro w member
    obtain ⟨n, repeats, inside⟩ := (mem_language_repetition body min max w).mp member
    exact (mem_language_repetition body min max w).mpr ⟨n, repeats, pow_le_pow_left' ih n inside⟩

end Expr

def derivation (bodies : Array (Expr RuleId)) : (RuleId → Language UInt8) →o (RuleId → Language UInt8) where
  toFun rules r :=
    match ruleBody? bodies r with
    | some body => body.language rules
    | none => 0
  monotone' := by
    intro rules more h r
    dsimp only
    cases ruleBody? bodies r with
    | none => exact le_refl _
    | some body => exact Expr.language_mono h body

/-- The byte strings that each rule matches: the least sets that the bodies allow. -/
def ruleLanguage (bodies : Array (Expr RuleId)) : RuleId → Language UInt8 := (derivation bodies).lfp

def Grammar.language (grammar : Grammar) : Language UInt8 :=
  ruleLanguage (Grammar.bodies grammar.rules) grammar.main

section

variable {bodies : Array (Expr RuleId)} {r : RuleId} {body : Expr RuleId}

theorem ruleLanguage_eq (found : ruleBody? bodies r = some body) :
    ruleLanguage bodies r = body.language (ruleLanguage bodies) := by
  have fixed := congrFun (derivation bodies).map_lfp r
  change (match ruleBody? bodies r with | some body => _ | none => _) = _ at fixed
  rw [found] at fixed
  exact fixed.symm

theorem ruleLanguage_outside (missing : ruleBody? bodies r = none) : ruleLanguage bodies r = 0 := by
  have fixed := congrFun (derivation bodies).map_lfp r
  change (match ruleBody? bodies r with | some body => _ | none => _) = _ at fixed
  rw [missing] at fixed
  exact fixed.symm

theorem ruleLanguage_le {sets : RuleId → Language UInt8}
    (allowed : ∀ r body, ruleBody? bodies r = some body → body.language sets ≤ sets r) :
    ruleLanguage bodies ≤ sets := by
  apply OrderHom.lfp_le
  intro r
  change (match ruleBody? bodies r with | some body => _ | none => _) ≤ _
  cases found : ruleBody? bodies r with
  | none => exact bot_le
  | some body => exact allowed r body found

end
end GuidedDecoding
