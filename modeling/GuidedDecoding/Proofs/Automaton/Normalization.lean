import Mathlib
import GuidedDecoding.Proofs.Automaton.Waiting
import GuidedDecoding.Proofs.Grammar.Compilation
import GuidedDecoding.Proofs.Grammar.LeftRecursion

namespace GuidedDecoding

namespace Automaton

theorem agrees_of_meaning {bodies others : Array (Expr RuleId)} {main : RuleId} {preferred preferred' : Nat}
    (free : leftRecursiveRule? bodies preferred = none)
    (otherFree : leftRecursiveRule? others preferred' = none)
    (known : main < bodies.size) (otherKnown : main < others.size)
    (same : ruleMeaning bodies 1 0 main = ruleMeaning others 1 0 main) (w : List UInt8) :
    (w.foldl (ofBodies bodies main).step (ofBodies bodies main).initial).accepting =
        (w.foldl (ofBodies others main).step (ofBodies others main).initial).accepting ∧
      ((ofBodies bodies main).stepBytes? (ofBodies bodies main).initial w).isSome =
        ((ofBodies others main).stepBytes? (ofBodies others main).initial w).isSome := by
  obtain ⟨rank, ranked⟩ := exists_leftRanked free
  obtain ⟨otherRank, otherRanked⟩ := exists_leftRanked otherFree
  have whole : ruleLanguage bodies main = ruleLanguage others main := congrArg Meaning.whole same
  constructor
  · rw [Bool.eq_iff_iff, accepting_after ranked, accepting_after otherRanked, whole]
  · rw [Bool.eq_iff_iff, isSome_stepBytes?_iff_meaning ranked known,
      isSome_stepBytes?_iff_meaning otherRanked otherKnown, same]

end Automaton

namespace Grammar

/-- The two settings of `normalize` accept the same texts, and report the same errors except that they
may name different rules as left recursive. Their automata agree on every byte string. -/
theorem normalize_agrees (text mainRule : String) :
    (∃ normal plain : Grammar, compile text ⟨mainRule, true⟩ = .ok normal ∧
      compile text ⟨mainRule, false⟩ = .ok plain ∧
      ∀ w : List UInt8,
        (w.foldl normal.automaton.step normal.automaton.initial).accepting =
            (w.foldl plain.automaton.step plain.automaton.initial).accepting ∧
          (normal.automaton.stepBytes? normal.automaton.initial w).isSome =
            (plain.automaton.stepBytes? plain.automaton.initial w).isSome) ∨
    ∃ fault other : GrammarError, compile text ⟨mainRule, true⟩ = .error fault ∧
      compile text ⟨mainRule, false⟩ = .error other ∧
      (fault = other ∨ ∃ r s, fault = .leftRecursion r ∧ other = .leftRecursion s) := by
  rw [compile, compile, ofText_eq, ofText_eq]
  dsimp only
  cases resolved : resolvedText text.toList mainRule with
  | error fault => exact .inr ⟨fault, fault, rfl, rfl, .inl rfl⟩
  | ok found =>
    obtain ⟨rules, main⟩ := found
    obtain ⟨inside, below⟩ := below_of_resolvedText resolved
    change (∃ normal plain, checked true rules main = .ok normal ∧ checked false rules main = .ok plain ∧ _) ∨
      ∃ fault other, checked true rules main = .error fault ∧ checked false rules main = .error other ∧ _
    rw [checked, checked]
    have free := NormalForm.leftRecursiveRule?_ofRules below
    change leftRecursiveRule? (bodies (table true rules)) _ = none ↔
      leftRecursiveRule? (bodies (table false rules)) _ = none at free
    cases normal : leftRecursiveRule? (bodies (table true rules)) rules.length with
    | some r =>
      cases plain : leftRecursiveRule? (bodies (table false rules)) rules.length with
      | some s => exact .inr ⟨_, _, rfl, rfl, .inr ⟨_, _, rfl, rfl⟩⟩
      | none => simp [normal, plain] at free
    | none =>
      have plain := free.mp normal
      rw [plain]
      refine .inl ⟨_, _, rfl, rfl, fun w => ?_⟩
      have known (normalize : Bool) : main < (bodies (table normalize rules)).size := by
        rw [size_bodies]
        exact Nat.lt_of_lt_of_le inside (below_table normalize below).1
      have same : ruleMeaning (bodies (table true rules)) 1 0 main =
          ruleMeaning (bodies (table false rules)) 1 0 main :=
        NormalForm.ruleMeaning_ofRules below 1 (fun _ _ => rfl) inside
      exact Automaton.agrees_of_meaning normal plain (known true) (known false) same w

end Grammar

end GuidedDecoding
