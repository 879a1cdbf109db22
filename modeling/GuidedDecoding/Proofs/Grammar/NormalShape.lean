import Mathlib
import GuidedDecoding.Proofs.Grammar.NormalText

namespace GuidedDecoding.NormalForm

open GuidedDecoding.Expr

/-- A choice of sequences of items. It may have no alternative, and a sequence may have no item. -/
def IsNormal (body : Expr RuleId) : Prop :=
  ∃ parts : List (List (Expr RuleId)),
    body = .choice (parts.map .sequence) ∧ ∀ items ∈ parts, (∀ e ∈ items, Item e) ∧ Merged items

def unconditional : Discipline where
  item _ := Item
  inhabited := False
  owner _ := True
  kept _ := True
  mono _ item := item
  join one _ := one.append
  call _ := .rule _
  loop _ alone := .repetition (simple_of_unit? alone)
  count _ _ := trivial
  add _ _ _ := trivial

theorem fed_unconditional (n : Nat) (e : Expr RuleId) : unconditional.Fed n e := by
  apply every_of_forall
  intro e
  cases e with
  | literal bytes => exact .literal
  | charClass negated ranges => exact .charClass negated ranges
  | rule r => exact .rule r
  | choice parts => exact False.elim
  | _ => trivial

theorem isNormal_of_unconditional {n : Nat} {body : Expr RuleId} (normal : unconditional.Normal n body) :
    IsNormal body := by
  obtain ⟨parts, same, choice⟩ := normal
  exact ⟨parts, same, fun items among => ⟨(choice.each items among).each, (choice.each items among).merged⟩⟩

section

variable (owner : String) {parts : List (List (Expr RuleId))}
  (each : ∀ items ∈ parts, (∀ e ∈ items, Item e) ∧ Merged items)
include each

theorem alternatives_sequences : alternatives owner (parts.map .sequence) = pure parts := by
  induction parts with
  | nil => rw [List.map_nil, alternatives]
  | cons es rest ih =>
    obtain ⟨all, merged⟩ := each es (by simp)
    rw [List.map_cons, alternatives_cons owner (by simp), items, itemsAll_items owner all, pure_bind,
      ih fun items among => each items (by simp [among]), pure_bind, merge_merged merged]

theorem alternatives_toBody : alternatives owner [toBody parts] = pure parts := by
  rw [toBody, alternatives, alternatives_sequences owner each, alternatives, pure_bind, pure_bind, List.append_nil]

end

theorem ofRules_of_normal {rules : List Rule} (normal : ∀ rule ∈ rules, IsNormal rule.body) :
    ofRules rules = rules := by
  have same : ofRules (rules.map id) = rules := by
    refine ofRules_map fun rule member state reset => ?_
    obtain ⟨parts, body, each⟩ := normal rule member
    have spelled : alternatives rule.name [rule.body] = pure parts := by
      rw [body]
      exact alternatives_toBody rule.name each
    exact rewriteRule_of_alternatives spelled body rfl reset
  rwa [List.map_id] at same

/-- The rules that come out are in normal form, and rules stay as they are exactly if they are in normal form. -/
theorem isNormal_ofRules (rules : List Rule) :
    (∀ rule ∈ ofRules rules, IsNormal rule.body) ∧ (ofRules rules = rules ↔ ∀ rule ∈ rules, IsNormal rule.body) := by
  have normal : ∀ rule ∈ ofRules rules, IsNormal rule.body := by
    intro rule member
    have fed : ∀ rule ∈ rules, unconditional.owner rule.name ∧ unconditional.Fed rules.length rule.body :=
      fun rule _ => ⟨trivial, fed_unconditional _ _⟩
    exact isNormal_of_unconditional ((Discipline.normal_ofRules fed trivial).2 rule member)
  constructor
  · exact normal
  · constructor
    · intro same
      rwa [same] at normal
    · exact ofRules_of_normal

end GuidedDecoding.NormalForm
