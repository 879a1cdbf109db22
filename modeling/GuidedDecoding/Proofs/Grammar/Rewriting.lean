import Mathlib
import GuidedDecoding.Proofs.Grammar.Meaning
import GuidedDecoding.Proofs.Grammar.NormalForm

namespace GuidedDecoding.NormalForm

open GuidedDecoding.Expr

section

variable {base : Nat} {byte : Language UInt8} {rules : RuleId → Meaning}

abbrev Models (base : Nat) (byte : Language UInt8) (rules : RuleId → Meaning) : List Rule → Prop :=
  Numbered base fun r rule => rules r = rule.body.meaning byte rules

/-- A rewriting keeps the rules that are there, and its result is as told when the added rules mean
what their bodies say. -/
def Keeps {α : Type} (base : Nat) (byte : Language UInt8) (rules : RuleId → Meaning)
    (rewriting : Rewriting α) (result : α → Prop) : Prop :=
  ∀ state : State, state.next = base + state.helpers.length →
    (rewriting state).2.next = base + (rewriting state).2.helpers.length ∧
      (Models base byte rules (rewriting state).2.helpers →
        Models base byte rules state.helpers ∧ result (rewriting state).1)

namespace Keeps

variable {α β : Type} {P : α → Prop} {Q R : β → Prop}

theorem pure {a : α} (h : P a) : Keeps base byte rules (pure a) P :=
  fun _ numbered => ⟨numbered, fun models => ⟨models, h⟩⟩

theorem imp {rewriting : Rewriting β} (keeps : Keeps base byte rules rewriting Q) (h : ∀ b, Q b → R b) :
    Keeps base byte rules rewriting R := by
  intro state numbered
  obtain ⟨after, kept⟩ := keeps state numbered
  exact ⟨after, fun models => (kept models).imp_right (h _)⟩

/-- What the first rewriting is told to yield is known only at the end, when all rules are added. -/
theorem bind {rewriting : Rewriting α} {next : α → Rewriting β}
    (first : Keeps base byte rules rewriting P)
    (second : ∀ a, Keeps base byte rules (next a) fun b => P a → Q b) :
    Keeps base byte rules (rewriting >>= next) Q := by
  intro state numbered
  obtain ⟨middle, before⟩ := first state numbered
  obtain ⟨last, kept⟩ := second _ _ middle
  refine ⟨last, fun models => ?_⟩
  obtain ⟨models, result⟩ := kept models
  obtain ⟨models, held⟩ := before models
  exact ⟨models, result held⟩

end Keeps

theorem meaning_toBody (alternatives : List (List (Expr RuleId))) :
    (toBody alternatives).meaning byte rules = meaningAny byte rules (alternatives.map .sequence) := by
  rw [toBody, meaning]

theorem meaningAll_prepend (item : Expr RuleId) (items : List (Expr RuleId)) :
    meaningAll byte rules (prepend item items) = item.meaning byte rules * meaningAll byte rules items := by
  unfold prepend
  split
  next a b rest => rw [meaningAll, meaningAll, meaning_literal_append, mul_assoc]
  next => rw [meaningAll]

theorem meaningAll_merge (items : List (Expr RuleId)) :
    meaningAll byte rules (merge items) = meaningAll byte rules items := by
  induction items with
  | nil => rfl
  | cons item rest ih =>
    rw [meaningAll, ← ih]
    exact meaningAll_prepend item (merge rest)

theorem meaningAll_copies (items : List (Expr RuleId)) (count : Nat) :
    meaningAll byte rules (List.replicate count items).flatten = meaningAll byte rules items ^ count := by
  induction count with
  | zero => rw [pow_zero]; rfl
  | succ count ih =>
    rw [List.replicate_succ, List.flatten_cons, meaningAll_append, ih, pow_succ']

variable (owner : String)

theorem addRule_keeps (alternatives : List (List (Expr RuleId))) :
    Keeps base byte rules (addRule owner alternatives) fun e =>
      e.meaning byte rules = meaningAny byte rules (alternatives.map .sequence) := by
  intro state numbered
  refine ⟨?_, fun models => ?_⟩
  · simp only [addRule, List.length_cons]
    rw [numbered, Nat.add_assoc]
  · obtain ⟨last, before⟩ := models
    refine ⟨before, ?_⟩
    dsimp only at last
    rw [← numbered, meaning_toBody] at last
    change meaning byte rules (.rule state.next) = _
    rw [meaning, last]

theorem optionalCopies_keeps (items tail : List (Expr RuleId)) (count : Nat) :
    Keeps base byte rules (optionalCopies owner items tail count) fun result =>
      meaningAll byte rules result =
        (fun rest => meaningAll byte rules items * rest + 1)^[count] (meaningAll byte rules tail) := by
  induction count generalizing tail with
  | zero => exact .pure rfl
  | succ count ih =>
    apply Keeps.bind (addRule_keeps owner _)
    intro copy
    apply (ih [copy]).imp
    intro result same copied
    rw [same, Function.iterate_succ_apply, meaningAll_single, copied]
    simp only [List.map_cons, List.map_nil, meaningAny, meaning, meaningAll_append, meaningAll, add_zero]

theorem repeated_keeps (items : List (Expr RuleId)) (min : Nat) (max : Option Nat) :
    Keeps base byte rules (repeated owner items min max) fun result =>
      meaningAll byte rules result = (meaningAll byte rules items).repeated min max := by
  unfold repeated
  split
  next blank =>
    apply Keeps.pure
    rw [List.isEmpty_iff.mp blank, meaningAll, Meaning.repeated_one]
  next =>
    cases max with
    | none =>
      have last (unit : Expr RuleId) : Keeps base byte rules
          (Pure.pure ((List.replicate min items).flatten ++ [.repetition unit 0 none])) fun result =>
            unit.meaning byte rules = meaningAll byte rules items →
              meaningAll byte rules result = (meaningAll byte rules items).repeated min none := by
        apply Keeps.pure
        intro same
        rw [meaningAll_append, meaningAll_copies, meaningAll_single, meaning, same, Meaning.repeated,
          Meaning.repeated, pow_zero, one_mul]
      dsimp only
      split
      next unit found =>
        have same : unit.meaning byte rules = meaningAll byte rules items := by
          rw [unit?_eq_some found, meaningAll_single]
        exact .bind (.pure same) fun unit => last unit
      next =>
        apply Keeps.bind (addRule_keeps owner [items])
        intro unit
        apply (last unit).imp
        intro result kept added
        apply kept
        rw [added, List.map_singleton, meaningAny, meaningAny, add_zero, meaning]
    | some max =>
      apply Keeps.bind (optionalCopies_keeps owner items [] _)
      intro copies
      apply Keeps.pure
      intro same
      rw [meaningAll_append, meaningAll_copies, same]
      rfl

theorem alternatives_keeps {parts : List (Expr RuleId)}
    (each : ∀ e ∈ parts, Keeps base byte rules (items owner e) fun result =>
      meaningAll byte rules result = e.meaning byte rules)
    (inner : ∀ e ∈ parts, ∀ inside, e = .choice inside →
      Keeps base byte rules (alternatives owner inside) fun result =>
        meaningAny byte rules (result.map .sequence) = meaningAny byte rules inside) :
    Keeps base byte rules (alternatives owner parts) fun result =>
      meaningAny byte rules (result.map .sequence) = meaningAny byte rules parts := by
  induction parts with
  | nil => exact .pure rfl
  | cons part rest ih =>
    have others := ih (fun e member => each e (by simp [member])) fun e member => inner e (by simp [member])
    by_cases choice : ∃ inside, part = .choice inside
    · obtain ⟨inside, rfl⟩ := choice
      rw [alternatives]
      apply Keeps.bind (inner _ (by simp) inside rfl)
      intro first
      apply Keeps.bind others
      intro others
      apply Keeps.pure
      intro later same
      rw [List.map_append, meaningAny_append, meaningAny, meaning, same, later]
    · rw [alternatives_cons owner fun inside same => choice ⟨inside, same⟩]
      apply Keeps.bind (each part (by simp))
      intro first
      apply Keeps.bind others
      intro others
      apply Keeps.pure
      intro later same
      rw [List.map_cons, meaningAny, meaningAny, meaning, meaningAll_merge, same, later]

theorem itemsAll_keeps {parts : List (Expr RuleId)}
    (each : ∀ e ∈ parts, Keeps base byte rules (items owner e) fun result =>
      meaningAll byte rules result = e.meaning byte rules) :
    Keeps base byte rules (itemsAll owner parts) fun result =>
      meaningAll byte rules result = meaningAll byte rules parts := by
  induction parts with
  | nil => exact .pure rfl
  | cons part rest ih =>
    have others := ih fun e member => each e (by simp [member])
    rw [itemsAll]
    apply Keeps.bind (each part (by simp))
    intro first
    apply Keeps.bind others
    intro others
    apply Keeps.pure
    intro later same
    rw [meaningAll_append, meaningAll, same, later]

theorem items_keeps (e : Expr RuleId) :
    (Keeps base byte rules (items owner e) fun result =>
      meaningAll byte rules result = e.meaning byte rules) ∧
      ∀ inside, e = .choice inside → Keeps base byte rules (alternatives owner inside) fun result =>
        meaningAny byte rules (result.map .sequence) = meaningAny byte rules inside := by
  induction e using structural with
  | empty => exact ⟨.pure (by rw [meaning]; rfl), by simp⟩
  | literal bytes =>
    cases bytes with
    | nil => exact ⟨.pure (by rw [meaning_literal_nil]; rfl), by simp⟩
    | cons b bytes => exact ⟨.pure (meaningAll_single _), by simp⟩
  | charClass negated ranges => exact ⟨.pure (meaningAll_single _), by simp⟩
  | rule r => exact ⟨.pure (meaningAll_single _), by simp⟩
  | sequence parts ih =>
    refine ⟨?_, by simp⟩
    rw [items, meaning]
    exact itemsAll_keeps owner fun e member => (ih e member).1
  | choice parts ih =>
    have kept := alternatives_keeps owner (fun e member => (ih e member).1) fun e member => (ih e member).2
    refine ⟨?_, fun inside same => ?_⟩
    · rw [items, meaning]
      apply Keeps.bind kept
      intro result
      split
      next only =>
        apply Keeps.pure
        intro same
        rw [← same, List.map_singleton, meaningAny, meaningAny, add_zero, meaning]
      next =>
        apply Keeps.bind (addRule_keeps owner result)
        intro e
        apply Keeps.pure
        intro added same
        rw [meaningAll_single, added, same]
    · cases same
      exact kept
  | repetition body min max ih =>
    refine ⟨?_, by simp⟩
    rw [items, meaning]
    apply Keeps.bind ih.1
    intro unit
    apply (repeated_keeps owner _ min max).imp
    intro result repeated same
    rw [repeated, meaningAll_merge, same]

end

section

variable {base : Nat} {byte : Language UInt8} {meanings : RuleId → Meaning}

theorem rewriteRule_keeps (rule : Rule) :
    Keeps base byte meanings (rewriteRule rule) fun result =>
      result.body.meaning byte meanings = rule.body.meaning byte meanings := by
  have reset : Keeps base byte meanings
      (modify fun state => { state with counter := 0 } : Rewriting PUnit) fun _ => True :=
    fun state numbered => ⟨numbered, fun models => ⟨models, trivial⟩⟩
  apply Keeps.bind reset
  intro _
  have parts : Keeps base byte meanings (alternatives rule.name [rule.body]) fun result =>
      meaningAny byte meanings (result.map .sequence) = meaningAny byte meanings [rule.body] := by
    refine alternatives_keeps rule.name (fun e member => ?_) fun e member => ?_
    · exact (items_keeps rule.name e).1
    · exact (items_keeps rule.name e).2
  apply Keeps.bind parts
  intro result
  apply Keeps.pure
  intro same _
  rw [meaning_toBody, same, meaningAny, meaningAny, add_zero]

theorem mapM_rewriteRule_keeps (rules : List Rule) :
    Keeps base byte meanings (rules.mapM rewriteRule) fun results =>
      results.map (fun rule => rule.body.meaning byte meanings) =
        rules.map (fun rule => rule.body.meaning byte meanings) := by
  induction rules with
  | nil => exact .pure rfl
  | cons rule rest ih =>
    rw [List.mapM_cons]
    apply Keeps.bind (rewriteRule_keeps rule)
    intro first
    apply Keeps.bind ih
    intro others
    apply Keeps.pure
    intro later same
    rw [List.map_cons, List.map_cons, same, later]

end

/-- What the rules before them mean determines what added rules mean. -/
theorem exists_models {base : Nat} (byte : Language UInt8) {added : List Rule}
    (earlier : Numbered base (fun r rule => rule.body.Below r) added) (meanings : RuleId → Meaning) :
    ∃ more : RuleId → Meaning, (∀ r < base, more r = meanings r) ∧ Models base byte more added := by
  induction added with
  | nil => exact ⟨meanings, fun _ _ => rfl, trivial⟩
  | cons rule before ih =>
    obtain ⟨below, earlier⟩ := earlier
    obtain ⟨more, same, models⟩ := ih earlier
    let new := base + before.length
    have old (r : RuleId) (inside : r < new) :
        Function.update more new (rule.body.meaning byte more) r = more r :=
      Function.update_of_ne (Nat.ne_of_lt inside) _ _
    refine ⟨Function.update more new (rule.body.meaning byte more), fun r inside => ?_, ?_, ?_⟩
    · rw [old r (Nat.lt_add_right _ inside), same r inside]
    · have here := Function.update_self new (rule.body.meaning byte more) more
      exact here.trans (meaning_congr old below).symm
    · apply numbered_iff.mpr
      intro k other found
      have inside : base + k < new := by
        have size := (List.getElem?_eq_some_iff.mp found).1
        rw [List.length_reverse] at size
        exact Nat.add_lt_add_left size base
      rw [old _ inside, numbered_iff.mp models k other found]
      have known := (numbered_iff.mp earlier k other found).mono inside.le
      exact (meaning_congr old known).symm

section

variable {rules : List Rule}

theorem outcome_models {byte : Language UInt8} {meanings : RuleId → Meaning}
    (models : Models rules.length byte meanings (outcome rules).2.helpers) :
    (outcome rules).1.map (fun rule => rule.body.meaning byte meanings) =
      rules.map (fun rule => rule.body.meaning byte meanings) := by
  have start : State.next ⟨.ofList (rules.map Rule.name), rules.length, [], 0⟩ = rules.length + 0 := rfl
  exact ((mapM_rewriteRule_keeps rules _ start).2 models).2

variable (below : ∀ rule ∈ rules, rule.body.Below rules.length)
include below

theorem ruleBody?_rewritten {r : RuleId} {body : Expr RuleId}
    (found : ruleBody? (Grammar.bodies rules.toArray) r = some body) :
    ∃ new, ruleBody? (Grammar.bodies (ofRules rules).toArray) r = some new ∧
      ∀ byte meanings, Models rules.length byte meanings (outcome rules).2.helpers →
        new.meaning byte meanings = body.meaning byte meanings := by
  rw [Grammar.ruleBody?_bodies] at found
  obtain ⟨rule, located, rfl⟩ := Option.map_eq_some_iff.mp found
  have inside : r < (outcome rules).1.length := by
    rw [length_outcome below]
    exact (List.getElem?_eq_some_iff.mp located).1
  refine ⟨(outcome rules).1[r].body, ?_, fun byte meanings models => ?_⟩
  · rw [Grammar.ruleBody?_bodies, ofRules_eq, List.getElem?_append_left inside,
      List.getElem?_eq_getElem inside]
    rfl
  · have same := congrArg (fun meanings => meanings[r]?) (outcome_models models)
    simpa only [List.getElem?_map, located, List.getElem?_eq_getElem inside, Option.map_some,
      Option.some.injEq] using same

theorem ruleBody?_added {k : Nat} {body : Expr RuleId} :
    ruleBody? (Grammar.bodies (ofRules rules).toArray) (rules.length + k) = some body ↔
      ∃ rule, (outcome rules).2.helpers.reverse[k]? = some rule ∧ rule.body = body := by
  rw [Grammar.ruleBody?_bodies, ofRules_eq, ← length_outcome below,
    List.getElem?_append_right (Nat.le_add_right _ _),
    Nat.add_sub_cancel_left, Option.map_eq_some_iff]

theorem added_below {r : RuleId} (added : rules.length ≤ r) {body : Expr RuleId}
    (found : ruleBody? (Grammar.bodies (ofRules rules).toArray) r = some body) : body.Below r := by
  obtain ⟨k, rfl⟩ := Nat.exists_eq_add_of_le added
  obtain ⟨rule, located, rfl⟩ := (ruleBody?_added below).mp found
  exact numbered_iff.mp (below_helpers below) k rule located

variable (byte : Language UInt8) {goal : RuleId → Language UInt8} (known : ∀ r, rules.length ≤ r → goal r = 0)
include known

theorem models_callMeaning : Models rules.length byte
    (callMeaning (Grammar.bodies (ofRules rules).toArray) byte goal) (outcome rules).2.helpers := by
  apply numbered_iff.mpr
  intro k rule found
  have body := (ruleBody?_added below).mpr ⟨rule, found, rfl⟩
  rw [callMeaning, known _ (Nat.le_add_right _ _), Meaning.call_zero, ruleMeaning_eq body]

/-- Rules mean in normal form what they meant before. -/
theorem ruleMeaning_ofRules {r : RuleId} (inside : r < rules.length) :
    ruleMeaning (Grammar.bodies (ofRules rules).toArray) byte goal r =
      ruleMeaning (Grammar.bodies rules.toArray) byte goal r := by
  let before := ruleMeaning (Grammar.bodies rules.toArray) byte goal
  have place (r : RuleId) (inside : r < rules.length) :
      ∃ body, ruleBody? (Grammar.bodies rules.toArray) r = some body ∧ body.Below rules.length := by
    refine ⟨rules[r].body, ?_, below _ (List.getElem_mem inside)⟩
    rw [Grammar.ruleBody?_bodies, List.getElem?_eq_getElem inside]
    rfl
  apply le_antisymm
  · obtain ⟨more, same, models⟩ := exists_models byte (below_helpers below)
      (callMeaning (Grammar.bodies rules.toArray) byte goal)
    let meanings (c : RuleId) : Meaning := if c < rules.length then before c else more c
    have calls : (fun c => (meanings c).call (goal c)) = more := by
      funext c
      dsimp only [meanings]
      split
      next early => exact (same c early).symm
      next late => rw [known c (Nat.le_of_not_lt late), Meaning.call_zero]
    have le : ruleMeaning (Grammar.bodies (ofRules rules).toArray) byte goal ≤ meanings := by
      apply ruleMeaning_le
      intro c body found
      rw [calls]
      by_cases early : c < rules.length
      · obtain ⟨old, located, within⟩ := place c early
        obtain ⟨new, moved, kept⟩ := ruleBody?_rewritten below located
        obtain rfl := Option.some.inj (moved.symm.trans found)
        dsimp only [meanings]
        rw [if_pos early, kept byte more models, meaning_congr same within]
        exact (ruleMeaning_eq located).ge
      · obtain ⟨k, rfl⟩ := Nat.exists_eq_add_of_le (Nat.le_of_not_lt early)
        obtain ⟨rule, located, rfl⟩ := (ruleBody?_added below).mp found
        dsimp only [meanings]
        rw [if_neg early, numbered_iff.mp models k rule located]
    have here := le r
    dsimp only [meanings] at here
    rwa [if_pos inside] at here
  · have le : before ≤ ruleMeaning (Grammar.bodies (ofRules rules).toArray) byte goal := by
      apply ruleMeaning_le
      intro c body found
      obtain ⟨new, moved, kept⟩ := ruleBody?_rewritten below found
      rw [ruleMeaning_eq moved, kept byte _ (models_callMeaning below byte known)]
      exact le_refl _
    exact le r

end

end GuidedDecoding.NormalForm
