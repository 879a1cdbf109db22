import Mathlib
import GuidedDecoding.Proofs.Automaton.Plan
import GuidedDecoding.Proofs.Grammar.Resolution

namespace GuidedDecoding

def begun (language : Language UInt8) : Language UInt8 := {u | ∃ v, v ≠ [] ∧ u ++ v ∈ language}

theorem mem_begun {language : Language UInt8} {u : List UInt8} :
    u ∈ begun language ↔ ∃ v, v ≠ [] ∧ u ++ v ∈ language := Iff.rfl

theorem begun_mul (one : Language UInt8) {other : Language UInt8} (inhabited : ∃ w, w ∈ other) :
    begun (one * other) = begun one + one * begun other := by
  ext u
  rw [Language.mem_add, Language.mem_mul, mem_begun]
  constructor
  · intro h
    obtain ⟨v, left, inside⟩ := h
    obtain ⟨x, first, y, second, same⟩ := Language.mem_mul.mp inside
    rcases List.append_eq_append_iff.mp same with ⟨c, rfl, rfl⟩ | ⟨c, rfl, rfl⟩
    · exact .inr ⟨x, first, c, ⟨v, left, second⟩, rfl⟩
    · by_cases none : c = []
      · obtain rfl := none
        refine .inr ⟨u, ?_, [], ⟨y, ?_, second⟩, List.append_nil u⟩
        · rwa [List.append_nil] at first
        · rwa [List.nil_append] at left
      · exact .inl ⟨c, none, first⟩
  · intro h
    rcases h with ⟨v, left, first⟩ | ⟨x, first, c, ⟨v, left, second⟩, rfl⟩
    · obtain ⟨w, second⟩ := inhabited
      refine ⟨v ++ w, by simp [left], ?_⟩
      rw [← List.append_assoc]
      exact Language.append_mem_mul first second
    · refine ⟨v, left, ?_⟩
      rw [List.append_assoc]
      exact Language.append_mem_mul first second

theorem begun_add (one other : Language UInt8) : begun (one + other) = begun one + begun other := by
  ext u
  simp only [Language.mem_add, mem_begun, and_or_left, exists_or]

theorem begun_zero : begun 0 = 0 := by
  ext u
  simp [mem_begun, Language.notMem_zero]

/-- What an expression matches, and what leads to a place inside it. -/
@[ext]
structure Meaning where
  whole : Language UInt8
  inside : Language UInt8

namespace Meaning

instance : One Meaning := ⟨⟨1, 0⟩⟩

instance : Zero Meaning := ⟨⟨0, 0⟩⟩

instance : Add Meaning := ⟨fun m k => ⟨m.whole + k.whole, m.inside + k.inside⟩⟩

/-- What leads into the second one has passed through the first one. -/
instance : Mul Meaning := ⟨fun m k => ⟨m.whole * k.whole, m.inside + m.whole * k.inside⟩⟩

@[simp] theorem whole_one : (1 : Meaning).whole = 1 := rfl

@[simp] theorem inside_one : (1 : Meaning).inside = 0 := rfl

@[simp] theorem whole_zero : (0 : Meaning).whole = 0 := rfl

@[simp] theorem inside_zero : (0 : Meaning).inside = 0 := rfl

@[simp] theorem whole_add (m k : Meaning) : (m + k).whole = m.whole + k.whole := rfl

@[simp] theorem inside_add (m k : Meaning) : (m + k).inside = m.inside + k.inside := rfl

@[simp] theorem whole_mul (m k : Meaning) : (m * k).whole = m.whole * k.whole := rfl

@[simp] theorem inside_mul (m k : Meaning) : (m * k).inside = m.inside + m.whole * k.inside := rfl

instance : Monoid Meaning where
  mul_assoc m k l := by
    ext1 <;> simp only [whole_mul, inside_mul, mul_add, mul_assoc, add_assoc]
  one_mul m := by ext1 <;> simp
  mul_one m := by ext1 <;> simp

instance : AddCommMonoid Meaning where
  add_assoc m k l := by ext1 <;> exact add_assoc _ _ _
  zero_add m := by ext1 <;> exact zero_add _
  add_zero m := by ext1 <;> exact add_zero _
  add_comm m k := by ext1 <;> exact add_comm _ _
  nsmul := nsmulRec

instance : PartialOrder Meaning :=
  .lift (fun m => (m.whole, m.inside)) fun _ _ same => Meaning.ext (congrArg Prod.fst same)
    (congrArg Prod.snd same)

theorem le_iff {m k : Meaning} : m ≤ k ↔ m.whole ≤ k.whole ∧ m.inside ≤ k.inside := Iff.rfl

theorem mul_mono {m m' k k' : Meaning} (first : m ≤ m') (second : k ≤ k') : m * k ≤ m' * k' :=
  ⟨mul_le_mul' first.1 second.1, add_le_add first.2 (mul_le_mul' first.1 second.2)⟩

theorem add_mono {m m' k k' : Meaning} (first : m ≤ m') (second : k ≤ k') : m + k ≤ m' + k' :=
  ⟨add_le_add first.1 second.1, add_le_add first.2 second.2⟩

theorem le_add_left (m k : Meaning) : m ≤ m + k :=
  ⟨le_add_of_nonneg_right bot_le, le_add_of_nonneg_right bot_le⟩

theorem le_add_right (m k : Meaning) : k ≤ m + k :=
  ⟨le_add_of_nonneg_left bot_le, le_add_of_nonneg_left bot_le⟩

theorem pow_mono {m m' : Meaning} (le : m ≤ m') (count : Nat) : m ^ count ≤ m' ^ count := by
  induction count with
  | zero => exact le_refl _
  | succ count ih =>
    rw [pow_succ, pow_succ]
    exact mul_mono ih le

def star (m : Meaning) : Meaning := ⟨KStar.kstar m.whole, KStar.kstar m.whole * m.inside⟩

def upTo (m : Meaning) (count : Nat) : Meaning := (fun rest => m * rest + 1)^[count] 1

def repeated (m : Meaning) (min : Nat) : Option Nat → Meaning
  | none => m ^ min * m.star
  | some max => m ^ min * m.upTo (max - min)

theorem upTo_succ (m : Meaning) (count : Nat) : m.upTo (count + 1) = m * m.upTo count + 1 :=
  Function.iterate_succ_apply' _ _ _

theorem one_le_star (m : Meaning) : 1 ≤ m.star := ⟨one_le_kstar, bot_le⟩

theorem mul_star_le (m : Meaning) : m * m.star ≤ m.star := by
  refine ⟨mul_kstar_le_kstar, ?_⟩
  have first : m.inside ≤ KStar.kstar m.whole * m.inside := le_mul_of_one_le_left' one_le_kstar
  have later : m.whole * (KStar.kstar m.whole * m.inside) ≤ KStar.kstar m.whole * m.inside := by
    rw [← mul_assoc]
    exact mul_le_mul' mul_kstar_le_kstar (le_refl _)
  exact add_le first later

theorem star_mono {m m' : Meaning} (le : m ≤ m') : m.star ≤ m'.star :=
  ⟨kstar_mono le.1, mul_le_mul' (kstar_mono le.1) le.2⟩

theorem upTo_mono {m m' : Meaning} (le : m ≤ m') (count : Nat) : m.upTo count ≤ m'.upTo count := by
  induction count with
  | zero => exact le_refl _
  | succ count ih =>
    rw [upTo_succ, upTo_succ]
    exact add_mono (mul_mono le ih) (le_refl 1)

theorem repeated_mono {m m' : Meaning} (le : m ≤ m') (min : Nat) (max : Option Nat) :
    m.repeated min max ≤ m'.repeated min max := by
  cases max with
  | none => exact mul_mono (pow_mono le min) (star_mono le)
  | some max => exact mul_mono (pow_mono le min) (upTo_mono le _)

theorem repeated_one (min : Nat) (max : Option Nat) : (1 : Meaning).repeated min max = 1 := by
  have star : (1 : Meaning).star = 1 := by ext1 <;> simp [Meaning.star]
  have upTo (count : Nat) : (1 : Meaning).upTo count = 1 := by
    induction count with
    | zero => rfl
    | succ count ih =>
      rw [upTo_succ, ih, mul_one]
      ext1 <;> simp
  cases max with
  | none => rw [repeated, one_pow, one_mul, star]
  | some max => rw [repeated, one_pow, one_mul, upTo]

end Meaning

namespace Expr

variable (byte : Language UInt8)

mutual

/-- The meaning of an expression when the meanings of the rules are known. What leads to the place
where a byte is read counts only together with what `byte` asks to follow there. -/
def meaning (rules : RuleId → Meaning) : Expr RuleId → Meaning
  | empty => 1
  | literal bytes => ⟨{bytes}, begun {bytes} * byte⟩
  | charClass negated ranges =>
    ⟨language 0 (charClass negated ranges), begun (language 0 (charClass negated ranges)) * byte⟩
  | rule r => rules r
  | sequence items => meaningAll rules items
  | choice alternatives => meaningAny rules alternatives
  | repetition body min max => (meaning rules body).repeated min max

def meaningAll (rules : RuleId → Meaning) : List (Expr RuleId) → Meaning
  | [] => 1
  | e :: rest => meaning rules e * meaningAll rules rest

def meaningAny (rules : RuleId → Meaning) : List (Expr RuleId) → Meaning
  | [] => 0
  | e :: rest => meaning rules e + meaningAny rules rest

end

variable {byte} {rules more : RuleId → Meaning}

theorem meaningAll_append (items others : List (Expr RuleId)) :
    meaningAll byte rules (items ++ others) =
      meaningAll byte rules items * meaningAll byte rules others := by
  induction items with
  | nil => rw [List.nil_append, meaningAll, one_mul]
  | cons e rest ih => rw [List.cons_append, meaningAll, meaningAll, ih, mul_assoc]

theorem meaningAny_append (alternatives others : List (Expr RuleId)) :
    meaningAny byte rules (alternatives ++ others) =
      meaningAny byte rules alternatives + meaningAny byte rules others := by
  induction alternatives with
  | nil => rw [List.nil_append, meaningAny, zero_add]
  | cons e rest ih => rw [List.cons_append, meaningAny, meaningAny, ih, add_assoc]

theorem meaningAll_single (e : Expr RuleId) : meaningAll byte rules [e] = meaning byte rules e := by
  rw [meaningAll, meaningAll, mul_one]

theorem meaning_literal_nil : meaning byte rules (.literal []) = 1 := by
  have none : begun {[]} = 0 := by
    ext u
    refine iff_of_false (fun h => ?_) (Language.notMem_zero u)
    obtain ⟨v, left, same⟩ := h
    exact left (List.append_eq_nil_iff.mp same).2
  rw [meaning, none, zero_mul]
  rfl

theorem meaning_literal_append (a b : List UInt8) :
    meaning byte rules (.literal (a ++ b)) =
      meaning byte rules (.literal a) * meaning byte rules (.literal b) := by
  have both : ({a ++ b} : Language UInt8) = {a} * {b} := by
    ext w
    rw [Language.mem_mul]
    constructor
    · intro h
      obtain rfl := h
      exact ⟨a, rfl, b, rfl, rfl⟩
    · intro h
      obtain ⟨_, rfl, _, rfl, rfl⟩ := h
      rfl
  have inhabited : ∃ w, w ∈ ({b} : Language UInt8) := ⟨b, rfl⟩
  rw [meaning, meaning, meaning]
  ext1
  · exact both
  · simp only [Meaning.inside_mul]
    rw [both, begun_mul _ inhabited, add_mul, mul_assoc]

theorem every_refers (e : Expr RuleId) : e.Every (Refers fun _ => True) := by
  apply every_of_forall
  intro e
  cases e <;> trivial

theorem Below.refers {n : Nat} {e : Expr RuleId} (below : e.Below n) : e.Every (Refers (· < n)) := by
  apply below.imp
  intro e resolved
  cases e with
  | rule r => exact resolved
  | _ => trivial

theorem meaning_le {known : RuleId → Prop} (le : ∀ r, known r → rules r ≤ more r) {e : Expr RuleId}
    (refers : e.Every (Refers known)) : meaning byte rules e ≤ meaning byte more e := by
  induction e using structural with
  | empty | literal | charClass => rw [meaning, meaning]
  | rule r =>
    rw [meaning, meaning]
    exact le r refers.here
  | sequence items ih =>
    have inside := refers.inside
    rw [members] at inside
    clear refers
    rw [meaning, meaning]
    induction items with
    | nil => rw [meaningAll, meaningAll]
    | cons e rest tail =>
      rw [meaningAll, meaningAll]
      exact Meaning.mul_mono (ih e (by simp) (inside e (by simp)))
        (tail (fun m member => ih m (by simp [member])) fun m member => inside m (by simp [member]))
  | choice alternatives ih =>
    have inside := refers.inside
    rw [members] at inside
    clear refers
    rw [meaning, meaning]
    induction alternatives with
    | nil => rw [meaningAny, meaningAny]
    | cons e rest tail =>
      rw [meaningAny, meaningAny]
      exact Meaning.add_mono (ih e (by simp) (inside e (by simp)))
        (tail (fun m member => ih m (by simp [member])) fun m member => inside m (by simp [member]))
  | repetition body min max ih =>
    rw [meaning, meaning]
    exact Meaning.repeated_mono (ih refers.body) min max

theorem meaning_mono (le : rules ≤ more) (e : Expr RuleId) : meaning byte rules e ≤ meaning byte more e :=
  meaning_le (fun r _ => le r) (every_refers e)

theorem meaning_congr {n : Nat} (same : ∀ r < n, rules r = more r) {e : Expr RuleId} (below : e.Below n) :
    meaning byte rules e = meaning byte more e :=
  le_antisymm (meaning_le (fun r known => (same r known).le) below.refers)
    (meaning_le (fun r known => (same r known).ge) below.refers)

end Expr

namespace Plan

variable {byte : Language UInt8} {rules : RuleId → Meaning}

def meaning (byte : Language UInt8) (rules : RuleId → Meaning) : Plan → Meaning
  | nothing => 0
  | silent => 1
  | .byte range => ⟨language 0 (.byte range), byte⟩
  | call rule => rules rule
  | join first second => meaning byte rules first * meaning byte rules second
  | beside one other => meaning byte rules one + meaning byte rules other
  | loop body => (meaning byte rules body).star

theorem whole_meaning (plan : Plan) :
    (plan.meaning byte rules).whole = plan.language fun r => (rules r).whole := by
  induction plan with
  | nothing | silent | byte | call => rfl
  | join first second one two => rw [meaning, Meaning.whole_mul, language, one, two]
  | beside first second one two => rw [meaning, Meaning.whole_add, language, one, two]
  | loop body ih => rw [meaning, Meaning.star, language, ih]

theorem meaning_copies (body after : Plan) (count : Nat) :
    (copies body count after).meaning byte rules =
      body.meaning byte rules ^ count * after.meaning byte rules := by
  induction count with
  | zero => rw [pow_zero, one_mul]; rfl
  | succ count ih => rw [copies_succ, meaning, ih, pow_succ', mul_assoc]

theorem meaning_optional (body : Plan) (count : Nat) :
    (optional body count).meaning byte rules = (body.meaning byte rules).upTo count := by
  induction count with
  | zero => rfl
  | succ count ih => rw [optional, meaning, meaning, meaning, ih, Meaning.upTo_succ, add_comm]

theorem meaning_repeated (body : Plan) (min : Nat) (max : Option Nat) :
    (repeated body min max).meaning byte rules = (body.meaning byte rules).repeated min max := by
  cases max with
  | none => rw [repeated, meaning_copies, meaning, Meaning.repeated]
  | some max => rw [repeated, meaning_copies, meaning_optional, Meaning.repeated]

theorem begun_byte {range : ByteRange} (proper : range.lo ≤ range.hi) :
    begun (language 0 (.byte range)) = 1 := by
  ext u
  constructor
  · intro h
    obtain ⟨v, left, b, _, same⟩ := h
    rcases List.singleton_eq_append_iff.mp same with ⟨rfl, _⟩ | ⟨_, rfl⟩
    · rfl
    · exact absurd rfl left
  · intro h
    obtain rfl := h
    refine ⟨[range.lo], by simp, range.lo, ?_, rfl⟩
    simp [ByteRange.contains, proper]

theorem meaning_path {ranges : List ByteRange} (inhabited : ranges ≠ [])
    (proper : ∀ r ∈ ranges, r.lo ≤ r.hi) :
    (path ranges).meaning byte rules =
      ⟨(path ranges).language 0, begun ((path ranges).language 0) * byte⟩ := by
  induction ranges with
  | nil => exact absurd rfl inhabited
  | cons range rest ih =>
    have first := begun_byte (proper range (by simp))
    cases rest with
    | nil => rw [path, meaning, first, one_mul]
    | cons next rest =>
      have proper : ∀ r ∈ next :: rest, r.lo ≤ r.hi := fun r member => proper r (by simp [member])
      have whole : (join (.byte range) (path (next :: rest))).language 0 =
          language 0 (.byte range) * (path (next :: rest)).language 0 := rfl
      rw [path_cons_cons, whole, begun_mul _ (exists_mem_path (by simp) proper), first, meaning,
        meaning, ih (by simp) proper]
      ext1
      · rfl
      · rw [Meaning.inside_mul, add_mul, one_mul, mul_assoc]

theorem meaning_paths {sequences : List (List ByteRange)} (inhabited : [] ∉ sequences)
    (proper : ∀ ranges ∈ sequences, ∀ r ∈ ranges, r.lo ≤ r.hi) :
    (paths sequences).meaning byte rules =
      ⟨(paths sequences).language 0, begun ((paths sequences).language 0) * byte⟩ := by
  induction sequences with
  | nil =>
    change (0 : Meaning) = ⟨0, begun 0 * byte⟩
    rw [begun_zero, zero_mul]
    rfl
  | cons ranges rest ih =>
    rw [List.mem_cons, not_or] at inhabited
    have first : (path ranges).meaning byte rules = _ :=
      meaning_path (Ne.symm inhabited.1) (proper ranges (by simp))
    have others := ih inhabited.2 fun ranges member => proper ranges (by simp [member])
    change (path ranges).meaning byte rules + (paths rest).meaning byte rules =
      ⟨(path ranges).language 0 + (paths rest).language 0,
        begun ((path ranges).language 0 + (paths rest).language 0) * byte⟩
    rw [first, others, begun_add, add_mul]
    rfl

end Plan

namespace Expr

variable {byte : Language UInt8} {rules : RuleId → Meaning}

theorem meaning_plan (e : Expr RuleId) : e.plan.meaning byte rules = e.meaning byte rules := by
  induction e using structural with
  | empty => rw [plan, meaning, Plan.meaning]
  | literal bytes =>
    cases bytes with
    | nil =>
      rw [plan, meaning_literal_nil, Plan.meaning]
    | cons b bytes =>
      have path : (literal (b :: bytes)).plan = .path ((b :: bytes).map fun b => ⟨b, b⟩) := by
        rw [plan]
        simp
      have proper : ∀ r ∈ (b :: bytes).map fun b => (⟨b, b⟩ : ByteRange), r.lo ≤ r.hi := by
        intro r member
        obtain ⟨b, _, rfl⟩ := List.mem_map.mp member
        exact UInt8.le_refl b
      have whole : (literal (b :: bytes)).plan.language 0 = {b :: bytes} := by
        rw [language_plan, language]
      rw [path] at whole ⊢
      rw [Plan.meaning_path (by simp) proper, whole, meaning]
  | charClass negated ranges =>
    have whole : (charClass negated ranges).plan.language 0 = language 0 (charClass negated ranges) :=
      language_plan _
    rw [plan] at whole ⊢
    rw [Plan.meaning_paths (CodeRange.nil_not_mem_lowered ranges negated)
      (fun sequence lowered r => CodeRange.lowered_proper ranges negated lowered), whole, meaning]
  | rule target => rw [plan, meaning, Plan.meaning]
  | sequence items ih =>
    have all : (planAll items).meaning byte rules = meaningAll byte rules items := by
      induction items with
      | nil => rfl
      | cons item rest tail =>
        have head := ih item (by simp)
        have tail := tail fun e member => ih e (by simp [member])
        cases rest with
        | nil => rw [planAll, meaningAll_single, head]
        | cons next rest =>
          rw [planAll, meaningAll, Plan.meaning, head, tail]
          simp
    rw [plan, meaning, all]
  | choice alternatives ih =>
    have any : (planAny alternatives).meaning byte rules = meaningAny byte rules alternatives := by
      induction alternatives with
      | nil => rfl
      | cons e rest tail =>
        have head := ih e (by simp)
        have tail := tail fun e member => ih e (by simp [member])
        rw [planAny, meaningAny, Plan.meaning, head, tail]
    rw [plan, meaning, any]
  | repetition body min max ih => rw [plan, meaning, Plan.meaning_repeated, ih]

theorem whole_meaning (e : Expr RuleId) :
    (e.meaning byte rules).whole = e.language fun r => (rules r).whole := by
  rw [← meaning_plan, Plan.whole_meaning, language_plan]

end Expr

def Meaning.call (m : Meaning) (goal : Language UInt8) : Meaning := ⟨m.whole, goal + m.inside⟩

@[simp] theorem Meaning.call_zero (m : Meaning) : m.call 0 = m := by
  rw [call, zero_add]

section

variable (bodies : Array (Expr RuleId)) (byte : Language UInt8) (goal : RuleId → Language UInt8)

/-- What leads into the rules, when it is known for some strings already. -/
def advance : (RuleId → Language UInt8) →o (RuleId → Language UInt8) where
  toFun sets r :=
    match ruleBody? bodies r with
    | some body => (body.meaning byte fun c => ⟨ruleLanguage bodies c, goal c + sets c⟩).inside
    | none => 0
  monotone' := by
    intro sets more le r
    dsimp only
    cases ruleBody? bodies r with
    | none => exact le_refl _
    | some body =>
      refine (Expr.meaning_mono (fun c => ?_) body).2
      exact ⟨le_refl _, add_le_add (le_refl _) (le c)⟩

/-- The meanings of the rules: the least ones that the bodies allow. -/
def ruleMeaning (r : RuleId) : Meaning := ⟨ruleLanguage bodies r, (advance bodies byte goal).lfp r⟩

def callMeaning (r : RuleId) : Meaning := (ruleMeaning bodies byte goal r).call (goal r)

variable {bodies byte goal} {r : RuleId} {body : Expr RuleId}

theorem ruleMeaning_eq (found : ruleBody? bodies r = some body) :
    ruleMeaning bodies byte goal r = body.meaning byte (callMeaning bodies byte goal) := by
  have fixed := congrFun (advance bodies byte goal).map_lfp r
  change (match ruleBody? bodies r with | some body => _ | none => _) = _ at fixed
  rw [found] at fixed
  ext1
  · rw [Expr.whole_meaning]
    exact ruleLanguage_eq found
  · exact fixed.symm

theorem ruleMeaning_le {meanings : RuleId → Meaning}
    (allowed : ∀ r body, ruleBody? bodies r = some body →
      body.meaning byte (fun c => (meanings c).call (goal c)) ≤ meanings r) :
    ruleMeaning bodies byte goal ≤ meanings := by
  have wholes : ruleLanguage bodies ≤ fun r => (meanings r).whole := by
    apply ruleLanguage_le
    intro r body found
    have whole := (Meaning.le_iff.mp (allowed r body found)).1
    rwa [Expr.whole_meaning] at whole
  have insides : (advance bodies byte goal).lfp ≤ fun r => (meanings r).inside := by
    apply OrderHom.lfp_le
    intro r
    change (match ruleBody? bodies r with | some body => _ | none => _) ≤ _
    cases found : ruleBody? bodies r with
    | none => exact bot_le
    | some body =>
      refine le_trans (Expr.meaning_mono (fun c => ?_) body).2 (allowed r body found).2
      exact ⟨wholes c, le_refl _⟩
  exact fun r => ⟨wholes r, insides r⟩

end

end GuidedDecoding
