import Mathlib
import GuidedDecoding.Proofs.Grammar.LeftCalls
import GuidedDecoding.Proofs.Grammar.Rewriting

namespace GuidedDecoding

theorem nil_mem_mul {one other : Language UInt8} : [] ∈ one * other ↔ [] ∈ one ∧ [] ∈ other := by
  simp [Language.mem_mul]

theorem nil_mem_pow {language : Language UInt8} {count : Nat} :
    [] ∈ language ^ count ↔ count = 0 ∨ [] ∈ language := by
  induction count with
  | zero => simp
  | succ count ih =>
    rw [pow_succ, nil_mem_mul, ih]
    simp +contextual

namespace Meaning

variable {m k : Meaning}

theorem nil_inside_mul :
    [] ∈ (m * k).inside ↔ [] ∈ m.inside ∨ [] ∈ m.whole ∧ [] ∈ k.inside := by
  rw [inside_mul, Language.mem_add, nil_mem_mul]

theorem whole_pow (count : Nat) : (m ^ count).whole = m.whole ^ count := by
  induction count with
  | zero => rfl
  | succ count ih => rw [pow_succ, pow_succ, whole_mul, ih]

theorem nil_inside_pow {count : Nat} : [] ∈ (m ^ count).inside ↔ count ≠ 0 ∧ [] ∈ m.inside := by
  induction count with
  | zero => simp [Language.notMem_zero]
  | succ count ih =>
    rw [pow_succ', nil_inside_mul, ih]
    simp +contextual

theorem nil_inside_star : [] ∈ m.star.inside ↔ [] ∈ m.inside := by
  rw [star, nil_mem_mul, and_iff_right (Language.nil_mem_kstar m.whole)]

theorem nil_inside_upTo {count : Nat} : [] ∈ (m.upTo count).inside ↔ count ≠ 0 ∧ [] ∈ m.inside := by
  induction count with
  | zero => simp [upTo, Language.notMem_zero]
  | succ count ih =>
    rw [upTo_succ, inside_add, Language.mem_add, nil_inside_mul, ih]
    simp +contextual [Language.notMem_zero]

theorem nil_inside_repeated {min : Nat} {max : Option Nat} :
    [] ∈ (m.repeated min max).inside ↔ ¬(min = 0 ∧ max = some 0) ∧ [] ∈ m.inside := by
  cases max with
  | none =>
    rw [repeated, nil_inside_mul, nil_inside_pow, nil_inside_star, whole_pow, nil_mem_pow]
    by_cases none : min = 0 <;> simp +contextual [none]
  | some max =>
    rw [repeated, nil_inside_mul, nil_inside_pow, nil_inside_upTo, whole_pow, nil_mem_pow]
    by_cases none : min = 0 <;> simp +contextual [none]

end Meaning

namespace Expr

variable {known : RuleId → Bool}

theorem nullableAll_iff {items : List (Expr RuleId)} :
    nullableAll known items = true ↔ ∀ e ∈ items, e.nullable known = true := by
  induction items with
  | nil => simp [nullableAll]
  | cons e rest ih => simp [nullableAll, ih]

theorem nullableAny_iff {alternatives : List (Expr RuleId)} :
    nullableAny known alternatives = true ↔ ∃ e ∈ alternatives, e.nullable known = true := by
  induction alternatives with
  | nil => simp [nullableAny]
  | cons e rest ih => simp [nullableAny, ih]

theorem nullable_iff {rules : RuleId → Language UInt8} (matching : ∀ r, known r = true ↔ [] ∈ rules r)
    (e : Expr RuleId) : e.nullable known = true ↔ [] ∈ e.language rules := by
  induction e using structural with
  | empty =>
    rw [nullable, language]
    exact iff_of_true rfl Language.nil_mem_one
  | literal bytes =>
    rw [nullable, language, List.isEmpty_iff]
    exact eq_comm
  | charClass negated ranges =>
    rw [nullable]
    refine iff_of_false Bool.false_ne_true fun h => ?_
    obtain ⟨c, _, encoded⟩ := (mem_language_charClass negated ranges []).mp h
    exact String.utf8EncodeChar_ne_nil encoded
  | rule r =>
    rw [nullable, language]
    exact matching r
  | sequence items ih =>
    rw [nullable, language]
    induction items with
    | nil => exact iff_of_true rfl Language.nil_mem_one
    | cons e rest tail =>
      rw [nullableAll, languageAll, Bool.and_eq_true, nil_mem_mul, ih e (by simp),
        tail fun e member => ih e (by simp [member])]
  | choice alternatives ih =>
    rw [nullable, language]
    induction alternatives with
    | nil => exact iff_of_false Bool.false_ne_true (Language.notMem_zero [])
    | cons e rest tail =>
      rw [nullableAny, languageAny, Bool.or_eq_true, Language.mem_add, ih e (by simp),
        tail fun e member => ih e (by simp [member])]
  | repetition body min max ih =>
    rw [nullable, mem_language_repetition, Bool.or_eq_true, beq_iff_eq, ih]
    constructor
    · intro h
      refine ⟨min, ⟨Nat.le_refl min, fun bound _ => Nat.le_max_left min bound⟩, nil_mem_pow.mpr h⟩
    · intro h
      obtain ⟨count, repeats, matched⟩ := h
      refine (nil_mem_pow.mp matched).imp_left fun none => ?_
      exact Nat.le_zero.mp (none ▸ repeats.1)

/-- What an expression leads to before any byte is what its left calls lead to. -/
theorem nil_inside_iff {rules : RuleId → Meaning} (matching : ∀ r, known r = true ↔ [] ∈ (rules r).whole)
    (e : Expr RuleId) :
    [] ∈ (e.meaning 0 rules).inside ↔ ∃ c ∈ e.leftCalls known, [] ∈ (rules c).inside := by
  have skipped (e : Expr RuleId) : [] ∈ (e.meaning 0 rules).whole ↔ e.nullable known = true := by
    rw [whole_meaning, nullable_iff matching]
  induction e using structural with
  | empty =>
    rw [meaning, leftCalls]
    simp [Language.notMem_zero]
  | literal | charClass =>
    rw [meaning, leftCalls, mul_zero]
    simp [Language.notMem_zero]
  | rule r =>
    rw [meaning, leftCalls]
    simp
  | sequence items ih =>
    rw [meaning, leftCalls]
    induction items with
    | nil => simp [meaningAll, leftCallsAll, Language.notMem_zero]
    | cons e rest tail =>
      have first : _ ↔ _ := ih e (by simp)
      have others : _ ↔ _ := tail fun e member => ih e (by simp [member])
      rw [meaningAll, leftCallsAll, Meaning.nil_inside_mul, first, skipped, others]
      by_cases empty : e.nullable known = true <;> simp [empty, or_and_right, exists_or]
  | choice alternatives ih =>
    rw [meaning, leftCalls]
    induction alternatives with
    | nil => simp [meaningAny, leftCallsAny, Language.notMem_zero]
    | cons e rest tail =>
      have first : _ ↔ _ := ih e (by simp)
      have others : _ ↔ _ := tail fun e member => ih e (by simp [member])
      rw [meaningAny, leftCallsAny, Meaning.inside_add, Language.mem_add, first, others]
      simp [or_and_right, exists_or]
  | repetition body min max ih =>
    have inside : _ ↔ _ := ih
    rw [meaning, leftCalls, Meaning.nil_inside_repeated, inside]
    by_cases absent : min = 0 ∧ max = some 0 <;> simp [absent]

theorem Below.leftCalls {n : Nat} {e : Expr RuleId} (below : e.Below n) {c : RuleId}
    (called : c ∈ e.leftCalls known) : c < n := by
  induction e using structural with
  | empty | literal | charClass =>
    rw [Expr.leftCalls] at called
    exact absurd called List.not_mem_nil
  | rule r =>
    rw [Expr.leftCalls] at called
    obtain rfl := List.mem_singleton.mp called
    exact below.here
  | sequence items ih =>
    rw [Expr.leftCalls] at called
    have inside := below.inside
    rw [members] at inside
    clear below
    induction items with
    | nil => exact absurd called List.not_mem_nil
    | cons e rest tail =>
      rw [leftCallsAll, List.mem_append] at called
      rcases called with first | later
      · exact ih e (by simp) (inside e (by simp)) first
      · split at later
        · exact tail (fun m member => ih m (by simp [member])) later
            fun m member => inside m (by simp [member])
        · exact absurd later List.not_mem_nil
  | choice alternatives ih =>
    rw [Expr.leftCalls] at called
    have inside := below.inside
    rw [members] at inside
    clear below
    induction alternatives with
    | nil => exact absurd called List.not_mem_nil
    | cons e rest tail =>
      rw [leftCallsAny, List.mem_append] at called
      rcases called with first | later
      · exact ih e (by simp) (inside e (by simp)) first
      · exact tail (fun m member => ih m (by simp [member])) later
          fun m member => inside m (by simp [member])
  | repetition body min max ih =>
    rw [Expr.leftCalls] at called
    split at called
    · exact absurd called List.not_mem_nil
    · exact ih below.body called

end Expr

namespace LeftRecursion

variable {calls : Array (List RuleId)}

namespace Circle

variable {cycle : List RuleId} {r : RuleId}

theorem transGen (circle : Circle calls cycle) (member : r ∈ cycle) :
    Relation.TransGen (fun r c => c ∈ calls[r]?.getD []) r r := by
  obtain ⟨c, rest, rfl, chain⟩ := circle
  have chain : (c :: rest ++ [c]).IsChain (Relation.TransGen fun c r => c ∈ calls[r]?.getD []) :=
    chain.imp fun _ _ called => .single called
  have pairs := chain.pairwise
  obtain ⟨inner, _, back⟩ := List.pairwise_append.mp pairs
  have home := back r member c (by simp)
  apply Relation.transGen_swap.mp
  rcases List.mem_cons.mp member with rfl | member
  · exact home
  · exact home.trans ((List.pairwise_cons.mp inner).1 r member)

theorem exists_caller (circle : Circle calls cycle) (member : r ∈ cycle) :
    ∃ caller ∈ cycle, r ∈ calls[caller]?.getD [] := by
  obtain ⟨c, rest, rfl, chain⟩ := circle
  obtain ⟨before, after, split⟩ := List.mem_iff_append.mp member
  rw [split, List.append_assoc] at chain
  have chain := chain.right_of_append
  cases after with
  | nil => exact ⟨c, by simp, (List.isChain_cons_cons.mp chain).1⟩
  | cons caller after => exact ⟨caller, by simp [split], (List.isChain_cons_cons.mp chain).1⟩

end Circle

end LeftRecursion

/-- A reference to the called rule stands in the body of the other one behind nullable items only. -/
def LeftCall (bodies : Array (Expr RuleId)) (r c : RuleId) : Prop :=
  ∃ body, ruleBody? bodies r = some body ∧ c ∈ body.leftCalls (nullableRules bodies).contains

/-- Left calls lead from the rule back to itself. -/
def LeftRecursive (bodies : Array (Expr RuleId)) (r : RuleId) : Prop :=
  Relation.TransGen (LeftCall bodies) r r

section

variable {bodies : Array (Expr RuleId)} {r c : RuleId}

theorem LeftCall.lt (call : LeftCall bodies r c) : r < bodies.size := by
  obtain ⟨body, found, _⟩ := call
  exact (Array.getElem?_eq_some_iff.mp found).1

theorem LeftRecursive.lt (recursive : LeftRecursive bodies r) : r < bodies.size := by
  obtain ⟨c, call, _⟩ := Relation.TransGen.head'_iff.mp recursive
  exact call.lt

theorem mem_callTable_iff : c ∈ (LeftRecursion.callTable bodies)[r]?.getD [] ↔ LeftCall bodies r c := by
  cases found : ruleBody? bodies r with
  | some body => rw [LeftRecursion.mem_callTable found, LeftCall]; simp [found]
  | none =>
    have missing : bodies[r]? = none := found
    rw [LeftCall, LeftRecursion.callTable, Array.getElem?_map, missing]
    simp [found]

theorem LeftRanked.lt_of_transGen {rank : RuleId → Nat} (ranked : LeftRanked bodies rank)
    (path : Relation.TransGen (LeftCall bodies) r c) (inside : c < bodies.size) : rank c < rank r := by
  have descends {r c : RuleId} (call : LeftCall bodies r c) (inside : c < bodies.size) : rank c < rank r := by
    obtain ⟨body, found, called⟩ := call
    exact ranked.descends r body found c called inside
  induction path using Relation.TransGen.head_induction_on with
  | single call => exact descends call inside
  | head call path lower =>
    obtain ⟨_, next, _⟩ := Relation.TransGen.head'_iff.mp path
    exact Nat.lt_trans lower (descends call next.lt)

/-- The rule reported is left recursive. If the rules from `preferred` on call only rules before them,
it is one of the rules before. -/
theorem leftRecursive_of_some {preferred : Nat} (reported : leftRecursiveRule? bodies preferred = some r) :
    LeftRecursive bodies r ∧
      ((∀ a b, preferred ≤ a → LeftCall bodies a b → b < a) → r < preferred) := by
  unfold leftRecursiveRule? LeftRecursion.report? at reported
  rw [LeftRecursion.size_callTable] at reported
  dsimp only at reported
  cases result : LeftRecursion.searchAll (LeftRecursion.callTable bodies)
      (.ofList (List.range bodies.size)) (List.range bodies.size) with
  | ok after =>
    rw [result] at reported
    cases reported
  | error cycle =>
    rw [result] at reported
    dsimp only at reported
    have circle := LeftRecursion.searchAll_circle result
    have recursive {c : RuleId} (member : c ∈ cycle) : LeftRecursive bodies c := by
      have path := circle.transGen member
      simp only [mem_callTable_iff] at path
      exact path
    split at reported
    next c least =>
      cases reported
      have member := List.min?_mem least
      rw [List.mem_filter, decide_eq_true_eq] at member
      exact ⟨recursive member.1, fun _ => member.2⟩
    next none =>
      refine ⟨recursive (List.min?_mem reported), fun descending => ?_⟩
      -- The greatest rule of the cycle is called by one of them, which calls only lower ones.
      have late : ∀ c ∈ cycle, preferred ≤ c := by
        rw [List.min?_eq_none_iff, List.filter_eq_nil_iff] at none
        intro c member
        simpa using none c member
      obtain ⟨greatest, found⟩ := Option.ne_none_iff_exists'.mp
        (mt List.max?_eq_none_iff.mp (List.ne_nil_of_mem (List.min?_mem reported)))
      obtain ⟨caller, member, called⟩ := circle.exists_caller (List.max?_mem found)
      have lower := descending caller greatest (late caller member) (mem_callTable_iff.mp called)
      exact absurd ((List.max?_le_iff found).mp (Nat.le_refl _) caller member) (Nat.not_le_of_lt lower)

theorem leftRecursiveRule?_eq_none_iff {preferred : Nat} :
    leftRecursiveRule? bodies preferred = none ↔ ∀ r, ¬LeftRecursive bodies r := by
  constructor
  · intro free r recursive
    obtain ⟨rank, ranked⟩ := exists_leftRanked free
    exact Nat.lt_irrefl _ (ranked.lt_of_transGen recursive recursive.lt)
  · intro free
    apply Option.eq_none_iff_forall_ne_some.mpr
    intro r reported
    exact free r (leftRecursive_of_some reported).1

theorem mem_nullableRules_iff : r ∈ nullableRules bodies ↔ [] ∈ ruleLanguage bodies r := by
  constructor
  · intro member
    refine of_mem_saturate (fun r => [] ∈ ruleLanguage bodies r) (by simp)
      (fun held r sound follows => ?_) member
    rw [Option.any_eq_true] at follows
    obtain ⟨body, found, empty⟩ := follows
    let rules (c : RuleId) : Language UInt8 := {w | w = [] ∧ held c = true}
    have le : rules ≤ ruleLanguage bodies := by
      intro c w h
      obtain ⟨rfl, known⟩ := h
      exact sound c known
    have matching (c : RuleId) : held c = true ↔ [] ∈ rules c := (and_iff_right rfl).symm
    rw [Expr.nullable_iff matching] at empty
    rw [ruleLanguage_eq found]
    exact Expr.language_mono le body empty
  · intro matched
    have le : ruleLanguage bodies ≤ fun r => {w | w = [] → r ∈ nullableRules bodies} := by
      apply ruleLanguage_le
      intro r body found w inside empty
      subst empty
      apply mem_nullableRules found
      rw [Expr.nullable_iff _ body]
      · exact inside
      · intro c
        rw [← Std.TreeSet.mem_iff_contains]
        exact ⟨fun member _ => member, fun h => h rfl⟩
    exact le r matched rfl

theorem contains_nullableRules (r : RuleId) :
    (nullableRules bodies).contains r = true ↔ [] ∈ ruleLanguage bodies r := by
  rw [← Std.TreeSet.mem_iff_contains, mem_nullableRules_iff]

def only (c : RuleId) : RuleId → Language UInt8 := fun d => if d = c then 1 else 0

/-- The rules that left calls lead to are those that the meaning of a rule leads to before any byte. -/
theorem transGen_leftCall_iff : Relation.TransGen (LeftCall bodies) r c ↔
    [] ∈ (ruleMeaning bodies 0 (only c) r).inside := by
  constructor
  · intro path
    have back {r d : RuleId} (call : LeftCall bodies r d)
        (reached : [] ∈ (callMeaning bodies 0 (only c) d).inside) :
        [] ∈ (ruleMeaning bodies 0 (only c) r).inside := by
      obtain ⟨body, found, called⟩ := call
      rw [ruleMeaning_eq found, Expr.nil_inside_iff contains_nullableRules]
      exact ⟨d, called, reached⟩
    induction path using Relation.TransGen.head_induction_on with
    | single call =>
      apply back call
      rw [callMeaning, Meaning.call, Language.mem_add, only, if_pos rfl]
      exact .inl Language.nil_mem_one
    | head call _ reached =>
      apply back call
      rw [callMeaning, Meaning.call, Language.mem_add]
      exact .inr reached
  · intro reached
    let meanings (r : RuleId) : Meaning :=
      ⟨ruleLanguage bodies r, {w | w = [] → Relation.TransGen (LeftCall bodies) r c}⟩
    have le : ruleMeaning bodies 0 (only c) ≤ meanings := by
      apply ruleMeaning_le
      intro r body found
      refine Meaning.le_iff.mpr ⟨?_, fun w inside empty => ?_⟩
      · rw [Expr.whole_meaning]
        exact (ruleLanguage_eq found).ge
      · subst empty
        obtain ⟨d, called, reached⟩ :=
          (Expr.nil_inside_iff (fun c => contains_nullableRules c) body).mp inside
        have call : LeftCall bodies r d := ⟨body, found, called⟩
        rw [Meaning.call, Language.mem_add, only] at reached
        rcases reached with here | later
        · split at here
          next same => exact .single (same ▸ call)
          next => exact absurd here (Language.notMem_zero [])
        · exact .head call (later rfl)
    exact (le r).2 reached rfl

end

namespace NormalForm

section

variable {rules : List Rule} (below : ∀ rule ∈ rules, rule.body.Below rules.length)
include below

theorem leftRecursive_ofRules {r : RuleId} (inside : r < rules.length) :
    LeftRecursive (Grammar.bodies (ofRules rules).toArray) r ↔
      LeftRecursive (Grammar.bodies rules.toArray) r := by
  have away (d : RuleId) (added : rules.length ≤ d) : only r d = 0 :=
    if_neg (Nat.ne_of_gt (Nat.lt_of_lt_of_le inside added))
  rw [LeftRecursive, LeftRecursive, transGen_leftCall_iff, transGen_leftCall_iff,
    ruleMeaning_ofRules below 0 away inside]

theorem leftRecursive_of_ofRules {r : RuleId}
    (reported : leftRecursiveRule? (Grammar.bodies (ofRules rules).toArray) rules.length = some r) :
    LeftRecursive (Grammar.bodies rules.toArray) r := by
  obtain ⟨recursive, early⟩ := leftRecursive_of_some reported
  have inside : r < rules.length := by
    apply early
    intro a b added call
    obtain ⟨body, found, called⟩ := call
    exact (added_below below added found).leftCalls called
  exact (leftRecursive_ofRules below inside).mp recursive

theorem leftRecursiveRule?_ofRules :
    leftRecursiveRule? (Grammar.bodies (ofRules rules).toArray) rules.length = none ↔
      leftRecursiveRule? (Grammar.bodies rules.toArray) rules.length = none := by
  have plain : leftRecursiveRule? (Grammar.bodies rules.toArray) rules.length = none ↔ _ :=
    leftRecursiveRule?_eq_none_iff
  rw [plain]
  constructor
  · intro free r recursive
    have inside : r < rules.length := by
      have known := recursive.lt
      rwa [Grammar.bodies, Array.size_map, List.size_toArray] at known
    exact leftRecursiveRule?_eq_none_iff.mp free r ((leftRecursive_ofRules below inside).mpr recursive)
  · intro free
    apply Option.eq_none_iff_forall_ne_some.mpr
    intro r reported
    exact free r (leftRecursive_of_ofRules below reported)

end

end NormalForm

end GuidedDecoding
