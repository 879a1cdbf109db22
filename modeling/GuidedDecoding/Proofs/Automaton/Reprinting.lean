import Mathlib
import GuidedDecoding.Proofs.Automaton.Normalization
import GuidedDecoding.Proofs.Grammar.Reprinting

namespace GuidedDecoding

namespace Grammar

theorem meansWithin_flattened (rules : List Rule) :
    MeansWithin (bodies rules.toArray) (bodies (rules.map Rule.flattened).toArray) ∧
      MeansWithin (bodies (rules.map Rule.flattened).toArray) (bodies rules.toArray) := by
  constructor
  · intro r body found
    rw [ruleBody?_bodies] at found
    obtain ⟨rule, located, rfl⟩ := Option.map_eq_some_iff.mp found
    refine ⟨rule.body.flattened, ?_, fun byte meanings => (Expr.meaning_flattened rule.body).symm⟩
    rw [ruleBody?_bodies, List.getElem?_map, located]
    rfl
  · intro r body found
    rw [ruleBody?_bodies, List.getElem?_map, Option.map_map] at found
    obtain ⟨rule, located, rfl⟩ := Option.map_eq_some_iff.mp found
    refine ⟨rule.body, ?_, fun byte meanings => Expr.meaning_flattened rule.body⟩
    rw [ruleBody?_bodies, located]
    rfl

theorem free_flattened {rules : List Rule} {preferred : Nat}
    (free : leftRecursiveRule? (bodies rules.toArray) preferred = none) (preferred' : Nat) :
    leftRecursiveRule? (bodies (rules.map Rule.flattened).toArray) preferred' = none := by
  obtain ⟨within, around⟩ := meansWithin_flattened rules
  exact (leftRecursiveRule?_congr (within.ruleMeaning_eq around 0)).mp free

section

variable {rules : List Rule} (presentable : Presentable rules) {main : RuleId} (inside : main < rules.length)
include presentable inside

theorem bare_of_compile {again : Grammar} {settings : GrammarSettings}
    (compiled : compile (String.ofList (text ⟨rules.toArray, main, false⟩)) settings = .ok again) :
    ∀ rule ∈ rules, rule.body.Every (Expr.Bare (nameIn rules)) := by
  rw [compile, String.toList_ofList, text_eq] at compiled
  obtain ⟨definitions, read⟩ := exists_read_of_ofText compiled
  exact ((presentable.read_iff (List.ne_nil_of_length_pos (Nat.zero_lt_of_lt inside))).mp read).1

theorem compile_printed (bare : ∀ rule ∈ rules, rule.body.Every (Expr.Bare (nameIn rules)))
    (free : leftRecursiveRule? (bodies rules.toArray) rules.length = none) :
    compile (String.ofList (text ⟨rules.toArray, main, false⟩)) ⟨nameIn rules main, false⟩ =
      .ok ⟨(rules.map Rule.flattened).toArray, main, false⟩ := by
  have printed : ofText (rules.flatMap (Rule.text (nameIn rules))) ⟨nameIn rules main, false⟩ = _ :=
    presentable.ofText_printed bare inside rfl
  have freeAgain : leftRecursiveRule? (bodies (table false (rules.map Rule.flattened))) (rules.map Rule.flattened).length =
      none := free_flattened free _
  rw [compile, String.toList_ofList, text_eq, printed, checked, freeAgain]
  rfl

end

/-- A grammar can be compiled from its text exactly if no repetition is the body of another one, and the
automaton accepts the same strings then. -/
theorem compile_text_plain {text mainRule : String} {grammar : Grammar}
    (compiled : compile text ⟨mainRule, false⟩ = .ok grammar) :
    ((∃ again, compile (String.ofList grammar.text) ⟨mainRule, false⟩ = .ok again) ↔
        ∀ rule ∈ grammar.rules, rule.body.Every (¬·.Doubled)) ∧
      ∀ again, compile (String.ofList grammar.text) ⟨mainRule, false⟩ = .ok again → ∀ w : List UInt8,
        (w.foldl again.automaton.step again.automaton.initial).accepting =
          (w.foldl grammar.automaton.step grammar.automaton.initial).accepting := by
  obtain ⟨rules, main, rfl, origin⟩ := exists_origin compiled
  obtain ⟨presentable, compact, _, inside, rfl, free⟩ := origin
  have bare_iff : (∀ rule ∈ rules, rule.body.Every (Expr.Bare (nameIn rules))) ↔
      ∀ rule ∈ rules, rule.body.Every (¬·.Doubled) :=
    forall₂_congr fun rule member =>
      Expr.bare_iff_not_doubled (presentable.writable rule member) (compact rule member)
  constructor
  · have members : (∀ rule ∈ table false rules, rule.body.Every (¬·.Doubled)) ↔
        ∀ rule ∈ rules, rule.body.Every (¬·.Doubled) := by simp [table]
    rw [members, ← bare_iff]
    constructor
    · intro h
      obtain ⟨again, recompiled⟩ := h
      exact bare_of_compile presentable inside recompiled
    · exact fun bare => ⟨_, compile_printed presentable inside bare free⟩
  · intro again recompiled w
    have bare := bare_of_compile presentable inside recompiled
    obtain rfl := Except.ok.inj ((compile_printed presentable inside bare free).symm.trans recompiled)
    obtain ⟨within, around⟩ := meansWithin_flattened rules
    have same := congrFun (within.ruleMeaning_eq around 1 0) main
    have known : main < (bodies rules.toArray).size := by
      rw [size_bodies]
      exact inside
    have knownAgain : main < (bodies (rules.map Rule.flattened).toArray).size := by
      rw [size_bodies]
      simpa using inside
    exact (Automaton.agrees_of_meaning (free_flattened free 0) free knownAgain known same.symm w).1

theorem compile_text_plain_nested :
    ∃ grammar : Grammar, compile "root ::= \"a\" | (\"b\" | [c-e])+" ⟨"root", false⟩ = .ok grammar ∧
      (∃ again, compile (String.ofList grammar.text) ⟨"root", false⟩ = .ok again) ∧
      ∀ again, compile (String.ofList grammar.text) ⟨"root", false⟩ = .ok again → ∀ w : List UInt8,
        (w.foldl again.automaton.step again.automaton.initial).accepting =
          (w.foldl grammar.automaton.step grammar.automaton.initial).accepting := by
  let inner : Expr RuleId := .choice [.literal [98], .charClass false [⟨99, 101⟩]]
  let grammar : Grammar := ⟨#[⟨"root", .choice [.literal [97], .repetition inner 1 none]⟩], 0, false⟩
  have compiled : compile "root ::= \"a\" | (\"b\" | [c-e])+" ⟨"root", false⟩ = .ok grammar := by cbv
  obtain ⟨readable, same⟩ := compile_text_plain compiled
  refine ⟨grammar, compiled, readable.mpr fun rule member => ?_, same⟩
  obtain rfl := Array.mem_singleton.mp member
  have body : inner.Every (¬·.Doubled) :=
    .intro id (by simpa [inner, Expr.members] using ⟨.leaf id rfl, .leaf id rfl⟩)
  have repeated : (Expr.repetition inner 1 none).Every (¬·.Doubled) := .repetition id body
  exact .intro id (by simpa [Expr.members] using ⟨.leaf id rfl, repeated⟩)

theorem unreadable_doubled :
    ∃ grammar : Grammar, compile "root ::= (\"a\"*)+" ⟨"root", false⟩ = .ok grammar ∧
      grammar.text = "root ::= \"a\"*+\n".toList ∧
        compile (String.ofList grammar.text) ⟨"root", false⟩ = .error (.syntaxError ⟨1, 14⟩ .expectedRule) := by
  let grammar : Grammar := ⟨#[⟨"root", .repetition (.repetition (.literal [97]) 0 none) 1 none⟩], 0, false⟩
  have evaluated : compile "root ::= (\"a\"*)+" ⟨"root", false⟩ = .ok grammar ∧
      grammar.text = "root ::= \"a\"*+\n".toList ∧
        compile "root ::= \"a\"*+\n" ⟨"root", false⟩ = .error (.syntaxError ⟨1, 14⟩ .expectedRule) := by
    refine ⟨?_, ?_, ?_⟩ <;> cbv
  obtain ⟨compiled, shown, refused⟩ := evaluated
  exact ⟨grammar, compiled, shown, by rw [shown, String.ofList_toList, refused]⟩

end Grammar

end GuidedDecoding
