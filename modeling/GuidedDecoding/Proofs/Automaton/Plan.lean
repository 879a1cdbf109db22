import Mathlib
import GuidedDecoding.Automaton.Transition
import GuidedDecoding.Grammar.LeftRecursion
import GuidedDecoding.Proofs.Grammar.Language
import GuidedDecoding.Proofs.Text.ByteRange

namespace GuidedDecoding

open Draft

inductive Plan where
  | nothing
  | silent
  | byte (range : ByteRange)
  | call (rule : RuleId)
  | join (first second : Plan)
  | beside (one other : Plan)
  | loop (body : Plan)

namespace Plan

def draw : Plan → Fragment
  | nothing, _, _, draft => draft
  | silent, start, stop, draft => draft.edge start (.silent stop)
  | byte range, start, stop, draft => draft.edge start (.byte range stop)
  | call rule, start, stop, draft => draft.edge start (.call rule stop)
  | join first second, start, stop, draft =>
    second.draw draft.size stop (first.draw start draft.size draft.grow)
  | beside one other, start, stop, draft => other.draw start stop (one.draw start stop draft)
  | loop body, start, stop, draft => addLoop body.draw start stop draft

def path : List ByteRange → Plan
  | [] => nothing
  | [range] => byte range
  | range :: rest => join (byte range) (path rest)

def paths (sequences : List (List ByteRange)) : Plan :=
  sequences.foldr (fun ranges plan => beside (path ranges) plan) nothing

def copies (body : Plan) (count : Nat) (after : Plan) : Plan := (join body)^[count] after

def optional (body : Plan) : Nat → Plan
  | 0 => silent
  | count + 1 => beside silent (join body (optional body count))

def repeated (body : Plan) (min : Nat) : Option Nat → Plan
  | none => copies body min (loop body)
  | some max => copies body min (optional body (max - min))

theorem path_cons_cons (range next : ByteRange) (rest : List ByteRange) :
    path (range :: next :: rest) = join (byte range) (path (next :: rest)) := rfl

theorem copies_succ (body : Plan) (count : Nat) (after : Plan) :
    copies body (count + 1) after = join body (copies body count after) :=
  Function.iterate_succ_apply' (join body) count after

theorem draw_path (ranges : List ByteRange) : (path ranges).draw = addPath ranges := by
  induction ranges with
  | nil => rfl
  | cons range rest ih =>
    cases rest with
    | nil => rfl
    | cons next rest =>
      funext start stop draft
      rw [path_cons_cons, draw, ih]
      rfl

theorem draw_paths (sequences : List (List ByteRange)) : (paths sequences).draw = addPaths sequences := by
  funext start stop draft
  induction sequences generalizing draft with
  | nil => rfl
  | cons ranges rest ih =>
    change (paths rest).draw start stop ((path ranges).draw start stop draft) = _
    rw [ih, draw_path]
    rfl

theorem draw_optional (body : Plan) (count : Nat) :
    (optional body count).draw = addOptional body.draw count := by
  induction count with
  | zero => rfl
  | succ count ih =>
    funext start stop draft
    rw [optional, draw, draw, draw, ih]
    rfl

theorem draw_copies (body : Plan) (count : Nat) (after : Plan) (start stop : Node) (draft : Draft) :
    (copies body count after).draw start stop draft =
      after.draw (addCopies body.draw count start draft).1 stop
        (addCopies body.draw count start draft).2 := by
  induction count generalizing start draft with
  | zero => rfl
  | succ count ih => rw [copies_succ, draw, ih, addCopies]

end Plan

namespace Expr

mutual

def plan : Expr RuleId → Plan
  | empty => .silent
  | literal [] => .silent
  | literal bytes => .path (bytes.map fun b => ⟨b, b⟩)
  | charClass negated ranges =>
    .paths ((CodeRange.canonical ranges negated).flatMap CodeRange.toUtf8)
  | rule r => .call r
  | sequence items => planAll items
  | choice alternatives => planAny alternatives
  | repetition body min max => .repeated (plan body) min max

def planAll : List (Expr RuleId) → Plan
  | [] => .silent
  | [item] => plan item
  | item :: rest => .join (plan item) (planAll rest)

def planAny : List (Expr RuleId) → Plan
  | [] => .nothing
  | e :: rest => .beside (plan e) (planAny rest)

end

theorem draw_plan (e : Expr RuleId) : e.plan.draw = addExpr e := by
  induction e using structural with
  | empty => rfl
  | literal bytes =>
    cases bytes with
    | nil => rfl
    | cons b bytes =>
      funext start stop draft
      rw [plan, Plan.draw_path, addExpr] <;> simp
  | charClass negated ranges =>
    funext start stop draft
    rw [plan, Plan.draw_paths, addExpr]
  | rule target => rfl
  | sequence items ih =>
    have all : (planAll items).draw = addSequence items := by
      induction items with
      | nil => rfl
      | cons item rest tail =>
        have head := ih item (by simp)
        have tail := tail fun e member => ih e (by simp [member])
        funext start stop draft
        cases rest with
        | nil => rw [planAll, addSequence, head]
        | cons next rest =>
          rw [planAll, addSequence, Plan.draw, head, tail] <;> simp
    funext start stop draft
    rw [plan, all, addExpr]
  | choice alternatives ih =>
    have any : (planAny alternatives).draw = addChoice alternatives := by
      induction alternatives with
      | nil => rfl
      | cons e rest tail =>
        have head := ih e (by simp)
        have tail := tail fun e member => ih e (by simp [member])
        funext start stop draft
        rw [planAny, addChoice, Plan.draw, head, tail]
    funext start stop draft
    rw [plan, any, addExpr]
  | repetition body min max ih =>
    funext start stop draft
    rw [plan, addExpr]
    cases max with
    | none => rw [Plan.repeated, Plan.draw_copies, Plan.draw, ih]
    | some max => rw [Plan.repeated, Plan.draw_copies, Plan.draw_optional, ih]

end Expr

namespace Plan

variable {rules : RuleId → Language UInt8}

def language (rules : RuleId → Language UInt8) : Plan → Language UInt8
  | nothing => 0
  | silent => 1
  | byte range => {w | ∃ b, range.contains b = true ∧ [b] = w}
  | call rule => rules rule
  | join first second => language rules first * language rules second
  | beside one other => language rules one + language rules other
  | loop body => KStar.kstar (language rules body)

theorem mem_language_byte (range : ByteRange) (w : List UInt8) :
    w ∈ language rules (byte range) ↔ ∃ b, range.contains b = true ∧ [b] = w := Iff.rfl

theorem mem_language_path (ranges : List ByteRange) (inhabited : ranges ≠ []) (w : List UInt8) :
    w ∈ (path ranges).language rules ↔ ByteRange.matchAll ranges w = true := by
  induction ranges generalizing w with
  | nil => exact absurd rfl inhabited
  | cons range rest ih =>
    cases rest with
    | nil =>
      rw [path, mem_language_byte]
      match w with
      | [] => simp [ByteRange.matchAll]
      | [b] => simp [ByteRange.matchAll]
      | b :: c :: w => simp [ByteRange.matchAll]
    | cons next rest =>
      rw [path_cons_cons, language, Language.mem_mul]
      constructor
      · intro h
        obtain ⟨_, ⟨b, inside, rfl⟩, v, rest, rfl⟩ := h
        rw [List.singleton_append, ByteRange.matchAll, inside, Bool.true_and]
        exact (ih (by simp) v).mp rest
      · intro matched
        cases w with
        | nil => simp [ByteRange.matchAll] at matched
        | cons b w =>
          rw [ByteRange.matchAll, Bool.and_eq_true] at matched
          exact ⟨[b], ⟨b, matched.1, rfl⟩, w, (ih (by simp) w).mpr matched.2, rfl⟩

theorem exists_mem_path {ranges : List ByteRange} (inhabited : ranges ≠ [])
    (proper : ∀ r ∈ ranges, r.lo ≤ r.hi) : ∃ w, w ∈ (path ranges).language rules := by
  refine ⟨ranges.map ByteRange.lo, (mem_language_path ranges inhabited _).mpr ?_⟩
  clear inhabited
  induction ranges with
  | nil => rfl
  | cons range rest ih =>
    have low : range.contains range.lo = true := by
      simp [ByteRange.contains, proper range (by simp)]
    rw [List.map_cons, ByteRange.matchAll, low, ih fun r member => proper r (by simp [member])]
    rfl

theorem mem_language_paths (sequences : List (List ByteRange)) (inhabited : [] ∉ sequences)
    (w : List UInt8) :
    w ∈ (paths sequences).language rules ↔
      ∃ ranges ∈ sequences, ByteRange.matchAll ranges w = true := by
  induction sequences with
  | nil => simp [paths, language]
  | cons ranges rest ih =>
    rw [List.mem_cons, not_or] at inhabited
    change w ∈ (path ranges).language rules + (paths rest).language rules ↔ _
    rw [Language.mem_add, mem_language_path ranges (Ne.symm inhabited.1), ih inhabited.2]
    simp

theorem language_copies (body after : Plan) (count : Nat) :
    (copies body count after).language rules =
      body.language rules ^ count * after.language rules := by
  induction count with
  | zero => rw [pow_zero, one_mul]; rfl
  | succ count ih => rw [copies_succ, language, ih, pow_succ', mul_assoc]

theorem mem_language_optional (body : Plan) (count : Nat) (w : List UInt8) :
    w ∈ (optional body count).language rules ↔ ∃ n ≤ count, w ∈ body.language rules ^ n := by
  induction count generalizing w with
  | zero => simp [optional, language]
  | succ count ih =>
    rw [optional, language, language, language, Language.mem_add, Language.mem_mul]
    constructor
    · intro h
      rcases h with empty | ⟨u, first, v, others, rfl⟩
      · exact ⟨0, Nat.zero_le _, by rwa [pow_zero]⟩
      · obtain ⟨n, bound, others⟩ := (ih v).mp others
        refine ⟨n + 1, Nat.succ_le_succ bound, ?_⟩
        rw [pow_succ']
        exact Language.append_mem_mul first others
    · intro h
      obtain ⟨n, bound, inside⟩ := h
      cases n with
      | zero => exact .inl (by rwa [pow_zero] at inside)
      | succ n =>
        rw [pow_succ', Language.mem_mul] at inside
        obtain ⟨u, first, v, others, rfl⟩ := inside
        exact .inr ⟨u, first, v, (ih v).mpr ⟨n, Nat.le_of_succ_le_succ bound, others⟩, rfl⟩

theorem mem_language_loop (body : Plan) (w : List UInt8) :
    w ∈ (loop body).language rules ↔ ∃ n, w ∈ body.language rules ^ n := by
  rw [language, Language.kstar_eq_iSup_pow, Language.mem_iSup]

theorem mem_pow_add (language : Language UInt8) (least : Nat) (extra : Nat → Prop) (w : List UInt8) :
    (∃ u ∈ language ^ least, ∃ v, (∃ n, extra n ∧ v ∈ language ^ n) ∧ u ++ v = w) ↔
      ∃ n, extra n ∧ w ∈ language ^ (least + n) := by
  constructor
  · intro h
    obtain ⟨u, required, v, ⟨n, allowed, others⟩, rfl⟩ := h
    refine ⟨n, allowed, ?_⟩
    rw [pow_add]
    exact Language.append_mem_mul required others
  · intro h
    obtain ⟨n, allowed, inside⟩ := h
    rw [pow_add, Language.mem_mul] at inside
    obtain ⟨u, required, v, others, rfl⟩ := inside
    exact ⟨u, required, v, ⟨n, allowed, others⟩, rfl⟩

theorem mem_language_repeated (body : Plan) (min : Nat) (max : Option Nat) (w : List UInt8) :
    w ∈ (repeated body min max).language rules ↔
      ∃ n, Expr.Repeats min max n ∧ w ∈ body.language rules ^ n := by
  cases max with
  | none =>
    rw [repeated, language_copies, Language.mem_mul]
    simp only [mem_language_loop]
    have split := mem_pow_add (body.language rules) min (fun _ => True) w
    simp only [true_and] at split
    rw [split]
    constructor
    · intro h
      obtain ⟨n, inside⟩ := h
      exact ⟨min + n, ⟨Nat.le_add_right min n, by simp⟩, inside⟩
    · intro h
      obtain ⟨n, ⟨least, _⟩, inside⟩ := h
      obtain ⟨k, rfl⟩ := Nat.exists_eq_add_of_le least
      exact ⟨k, inside⟩
  | some max =>
    rw [repeated, language_copies, Language.mem_mul]
    simp only [mem_language_optional]
    rw [mem_pow_add _ min (· ≤ max - min) w]
    constructor
    · intro h
      obtain ⟨n, bound, inside⟩ := h
      refine ⟨min + n, ⟨Nat.le_add_right min n, ?_⟩, inside⟩
      intro _ h
      cases h
      omega
    · intro h
      obtain ⟨n, ⟨least, most⟩, inside⟩ := h
      obtain ⟨k, rfl⟩ := Nat.exists_eq_add_of_le least
      have := most max rfl
      exact ⟨k, by omega, inside⟩

end Plan

namespace Expr

variable {rules : RuleId → Language UInt8}

theorem language_plan (e : Expr RuleId) : e.plan.language rules = e.language rules := by
  induction e using structural with
  | empty => rw [plan, language, Plan.language]
  | literal bytes =>
    cases bytes with
    | nil => rw [plan, language, Plan.language]; rfl
    | cons b bytes =>
      ext w
      have path : (literal (b :: bytes)).plan = .path ((b :: bytes).map fun b => ⟨b, b⟩) := by
        rw [plan]
        simp
      rw [path, Plan.mem_language_path _ (by simp), ByteRange.matchAll_literal, language]
      rfl
  | charClass negated ranges =>
    ext w
    rw [plan, Plan.mem_language_paths _ (CodeRange.nil_not_mem_lowered ranges negated),
      CodeRange.lowered_matches, mem_language_charClass]
  | rule target => rw [plan, language, Plan.language]
  | sequence items ih =>
    have all : (planAll items).language rules = languageAll rules items := by
      induction items with
      | nil => rfl
      | cons item rest tail =>
        have head := ih item (by simp)
        have tail := tail fun e member => ih e (by simp [member])
        cases rest with
        | nil => rw [planAll, languageAll, languageAll, head, mul_one]
        | cons next rest =>
          rw [planAll, languageAll, Plan.language, head, tail]
          simp
    rw [plan, language, all]
  | choice alternatives ih =>
    have any : (planAny alternatives).language rules = languageAny rules alternatives := by
      induction alternatives with
      | nil => rfl
      | cons e rest tail =>
        have head := ih e (by simp)
        have tail := tail fun e member => ih e (by simp [member])
        rw [planAny, languageAny, Plan.language, head, tail]
    rw [plan, language, any]
  | repetition body min max ih =>
    ext w
    rw [plan, Plan.mem_language_repeated, mem_language_repetition, ih]

end Expr

namespace Plan

def nullable (known : RuleId → Bool) : Plan → Bool
  | nothing => false
  | silent => true
  | byte _ => false
  | call rule => known rule
  | join first second => nullable known first && nullable known second
  | beside one other => nullable known one || nullable known other
  | loop _ => true

def leftCalls (known : RuleId → Bool) : Plan → List RuleId
  | nothing | silent | byte _ => []
  | call rule => [rule]
  | join first second =>
    leftCalls known first ++ if nullable known first then leftCalls known second else []
  | beside one other => leftCalls known one ++ leftCalls known other
  | loop body => leftCalls known body

variable (known : RuleId → Bool)

theorem nullable_path (ranges : List ByteRange) : (path ranges).nullable known = false := by
  match ranges with
  | [] => rfl
  | [_] => rfl
  | _ :: _ :: _ => rfl

theorem leftCalls_path (ranges : List ByteRange) : (path ranges).leftCalls known = [] := by
  match ranges with
  | [] => rfl
  | [_] => rfl
  | _ :: _ :: _ => rfl

theorem nullable_paths (sequences : List (List ByteRange)) :
    (paths sequences).nullable known = false := by
  induction sequences with
  | nil => rfl
  | cons ranges rest ih =>
    change ((path ranges).nullable known || (paths rest).nullable known) = false
    rw [nullable_path, ih, Bool.or_self]

theorem leftCalls_paths (sequences : List (List ByteRange)) :
    (paths sequences).leftCalls known = [] := by
  induction sequences with
  | nil => rfl
  | cons ranges rest ih =>
    change (path ranges).leftCalls known ++ (paths rest).leftCalls known = []
    rw [leftCalls_path, ih, List.append_nil]

theorem nullable_optional (body : Plan) (count : Nat) : (optional body count).nullable known = true := by
  cases count <;> rfl

theorem mem_leftCalls_optional (body : Plan) (count : Nat) (r : RuleId) :
    r ∈ (optional body count).leftCalls known ↔ 0 < count ∧ r ∈ body.leftCalls known := by
  induction count with
  | zero => simp [optional, leftCalls]
  | succ count ih =>
    simp only [optional, leftCalls, List.nil_append, List.mem_append, Nat.succ_pos, true_and]
    constructor
    · intro called
      rcases called with first | later
      · exact first
      · split at later
        · exact (ih.mp later).2
        · simp at later
    · exact .inl

theorem nullable_copies (body after : Plan) (count : Nat) (skipped : after.nullable known = true) :
    (copies body count after).nullable known = (count == 0 || body.nullable known) := by
  induction count with
  | zero => simpa [copies] using skipped
  | succ count ih =>
    rw [copies_succ, nullable, ih]
    cases body.nullable known <;> simp

theorem mem_leftCalls_copies (body after : Plan) (count : Nat) (r : RuleId) :
    r ∈ (copies body count after).leftCalls known ↔
      0 < count ∧ r ∈ body.leftCalls known ∨
        (count = 0 ∨ body.nullable known = true) ∧ r ∈ after.leftCalls known := by
  induction count with
  | zero => simp [copies]
  | succ count ih =>
    rw [copies_succ, leftCalls, List.mem_append]
    by_cases skipped : body.nullable known = true
    · rw [if_pos skipped, ih]
      simp only [skipped, or_true, true_and, Nat.succ_pos]
      constructor
      · intro called
        rcases called with first | ⟨_, first⟩ | last
        · exact .inl first
        · exact .inl first
        · exact .inr last
      · exact .imp_right .inr
    · simp [skipped]

end Plan

namespace Expr

variable (known : RuleId → Bool)

theorem nullable_plan (e : Expr RuleId) : e.plan.nullable known = e.nullable known := by
  induction e using structural with
  | empty => rfl
  | literal bytes =>
    cases bytes with
    | nil => rfl
    | cons b bytes => exact Plan.nullable_path known _
  | charClass negated ranges => exact Plan.nullable_paths known _
  | rule target => rfl
  | sequence items ih =>
    have all : (planAll items).nullable known = nullableAll known items := by
      induction items with
      | nil => rfl
      | cons item rest tail =>
        have head := ih item (by simp)
        have tail := tail fun e member => ih e (by simp [member])
        cases rest with
        | nil => simp only [planAll, nullableAll, head, Bool.and_true]
        | cons next rest =>
          rw [planAll, nullableAll, Plan.nullable, head, tail]
          simp
    rw [plan, nullable, all]
  | choice alternatives ih =>
    have any : (planAny alternatives).nullable known = nullableAny known alternatives := by
      induction alternatives with
      | nil => rfl
      | cons e rest tail =>
        have head := ih e (by simp)
        have tail := tail fun e member => ih e (by simp [member])
        rw [planAny, nullableAny, Plan.nullable, head, tail]
    rw [plan, nullable, any]
  | repetition body min max ih =>
    rw [plan, nullable]
    cases max with
    | none => rw [Plan.repeated, Plan.nullable_copies _ _ _ _ rfl, ih]
    | some max =>
      rw [Plan.repeated, Plan.nullable_copies _ _ _ _ (Plan.nullable_optional known _ _), ih]

theorem mem_leftCalls_plan (e : Expr RuleId) (r : RuleId) :
    r ∈ e.plan.leftCalls known ↔ r ∈ e.leftCalls known := by
  induction e using structural with
  | empty => exact Iff.rfl
  | literal bytes =>
    cases bytes with
    | nil => exact Iff.rfl
    | cons b bytes =>
      change r ∈ (Plan.path ((b :: bytes).map fun b => ⟨b, b⟩)).leftCalls known ↔ _
      rw [Plan.leftCalls_path, leftCalls]
  | charClass negated ranges => rw [plan, Plan.leftCalls_paths, leftCalls]
  | rule target => exact Iff.rfl
  | sequence items ih =>
    rw [plan, leftCalls]
    induction items with
    | nil => exact Iff.rfl
    | cons item rest tail =>
      have head := ih item (by simp)
      have tail := tail fun e member => ih e (by simp [member])
      rw [leftCallsAll, List.mem_append]
      cases rest with
      | nil => simp [planAll, head, leftCallsAll]
      | cons next rest =>
        rw [planAll, Plan.leftCalls, List.mem_append, nullable_plan, head]
        · split
          next => rw [tail]
          next => exact Iff.rfl
        · simp
  | choice alternatives ih =>
    rw [plan, leftCalls]
    induction alternatives with
    | nil => exact Iff.rfl
    | cons e rest tail =>
      rw [planAny, Plan.leftCalls, leftCallsAny, List.mem_append, List.mem_append, ih e (by simp),
        tail fun e member => ih e (by simp [member])]
  | repetition body min max ih =>
    rw [plan, leftCalls]
    cases max with
    | none =>
      rw [Plan.repeated, Plan.mem_leftCalls_copies, Plan.leftCalls, ih, if_neg (by simp)]
      have passed : 0 < min ∨ min = 0 := (Nat.eq_zero_or_pos min).symm
      tauto
    | some max =>
      rw [Plan.repeated, Plan.mem_leftCalls_copies, Plan.mem_leftCalls_optional, ih]
      split
      next never =>
        obtain ⟨rfl, rfl⟩ : min = 0 ∧ max = 0 := by simpa using never
        simp
      next some =>
        have some : 0 < min ∨ min = 0 ∧ 0 < max - min := by
          simp only [Bool.and_eq_true, beq_iff_eq, Option.some.injEq] at some
          omega
        tauto

end Expr
end GuidedDecoding
