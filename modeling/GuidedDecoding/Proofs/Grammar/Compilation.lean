import Mathlib
import GuidedDecoding.Proofs.Grammar.LeftCalls
import GuidedDecoding.Proofs.Grammar.NormalForm

namespace GuidedDecoding

/-- The main rule and all references are in the table, no choice is empty, and there is no left
recursion. -/
structure Grammar.WellFormed (grammar : Grammar) : Prop where
  main : grammar.main < grammar.rules.size
  below : ∀ rule ∈ grammar.rules, rule.body.Below grammar.rules.size
  recursionFree : ∃ preferred, leftRecursiveRule? (Grammar.bodies grammar.rules) preferred = none

namespace Grammar

theorem WellFormed.exists_leftRanked {grammar : Grammar} (formed : grammar.WellFormed) :
    ∃ rank, LeftRanked (bodies grammar.rules) rank := by
  obtain ⟨_, recursionFree⟩ := formed.recursionFree
  exact GuidedDecoding.exists_leftRanked recursionFree

theorem size_bodies (rules : Array Rule) : (bodies rules).size = rules.size := Array.size_map

def resolvedText (text : List Char) (mainRule : String) : Except GrammarError (List Rule × RuleId) := do
  let definitions ← (Definition.read text).mapError fun fault =>
    .syntaxError (.before text fault.rest) fault.cause
  resolve definitions mainRule

def table (normalize : Bool) (rules : List Rule) : Array Rule :=
  (if normalize then NormalForm.ofRules rules else rules).toArray

def checked (normalize : Bool) (rules : List Rule) (main : RuleId) : Except GrammarError Grammar :=
  match leftRecursiveRule? (bodies (table normalize rules)) rules.length with
  | some r => .error (.leftRecursion ((table normalize rules)[r]?.elim "" Rule.name))
  | none => .ok ⟨table normalize rules, main, normalize⟩

theorem checked_eq_ok {normalize : Bool} {rules : List Rule} {main : RuleId} {grammar : Grammar} :
    checked normalize rules main = .ok grammar ↔
      leftRecursiveRule? (bodies (table normalize rules)) rules.length = none ∧
        grammar = ⟨table normalize rules, main, normalize⟩ := by
  rw [checked]
  split
  next r found => simp [found]
  next free => simp [free, eq_comm]

/-- Once the rules of a text are resolved, only the check for left recursion remains. -/
theorem ofText_eq (text : List Char) (settings : GrammarSettings) :
    ofText text settings =
      resolvedText text settings.mainRule >>= fun found => checked settings.normalize found.1 found.2 := by
  rw [ofText, resolvedText, bind_assoc]
  rfl

theorem exists_resolvedText {text : List Char} {settings : GrammarSettings} {grammar : Grammar}
    (compiled : ofText text settings = .ok grammar) :
    ∃ rules main, resolvedText text settings.mainRule = .ok (rules, main) ∧
      leftRecursiveRule? (bodies (table settings.normalize rules)) rules.length = none ∧
        grammar = ⟨table settings.normalize rules, main, settings.normalize⟩ := by
  rw [ofText_eq] at compiled
  obtain ⟨⟨rules, main⟩, resolved, compiled⟩ := of_bind_eq_ok compiled
  exact ⟨rules, main, resolved, checked_eq_ok.mp compiled⟩

theorem below_of_resolvedText {text : List Char} {mainRule : String} {rules : List Rule} {main : RuleId}
    (resolved : resolvedText text mainRule = .ok (rules, main)) :
    main < rules.length ∧ ∀ rule ∈ rules, rule.body.Below rules.length := by
  obtain ⟨definitions, read, resolved⟩ := of_bind_eq_ok resolved
  exact below_of_resolve (Definition.written_of_read (of_mapError_eq_ok read)) resolved

theorem below_table (normalize : Bool) {rules : List Rule}
    (below : ∀ rule ∈ rules, rule.body.Below rules.length) :
    rules.length ≤ (table normalize rules).size ∧
      ∀ rule ∈ table normalize rules, rule.body.Below (table normalize rules).size := by
  simp only [table, List.size_toArray, List.mem_toArray]
  split
  · exact NormalForm.below_ofRules below
  · exact ⟨Nat.le_refl _, below⟩

theorem wellFormed_of_ofText {text : List Char} {settings : GrammarSettings} {grammar : Grammar}
    (compiled : ofText text settings = .ok grammar) : grammar.WellFormed := by
  obtain ⟨rules, main, resolved, free, rfl⟩ := exists_resolvedText compiled
  obtain ⟨inside, below⟩ := below_of_resolvedText resolved
  obtain ⟨size, within⟩ := below_table settings.normalize below
  exact ⟨Nat.lt_of_lt_of_le inside size, within, _, free⟩

theorem wellFormed_of_compile {text : String} {settings : GrammarSettings} {grammar : Grammar}
    (compiled : compile text settings = .ok grammar) : grammar.WellFormed :=
  wellFormed_of_ofText compiled

def letters : Grammar :=
  ⟨#[⟨"root", .choice [.sequence [.charClass false [⟨97, 99⟩]], .sequence [.literal [98], .rule 0]]⟩], 0, true⟩

theorem compile_letters : compile "root ::= [a-c] | \"b\" root" {} = .ok letters := by cbv

end Grammar
end GuidedDecoding
