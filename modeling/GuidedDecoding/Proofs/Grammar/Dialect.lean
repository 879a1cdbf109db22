import Mathlib
import GuidedDecoding.Proofs.Grammar.Reading
import GuidedDecoding.Proofs.Grammar.Shape

namespace GuidedDecoding

namespace Expr

/-- What can be written in the text of a grammar, as far as it is not up to the parts of the expression. -/
def Standard : Expr String → Prop
  | empty => False
  | literal bytes => ∃ text, Utf8.encode text = bytes
  | charClass _ ranges => ranges ≠ [] ∧ ∀ range ∈ ranges, range.Bounded
  | rule name => Token.IsName name
  | sequence items => 2 ≤ items.length
  | choice alternatives => 2 ≤ alternatives.length
  | repetition _ min max => Quantifiable min max

abbrev AllStandard (e : Expr String) : Prop := e.Every Standard

end Expr

structure Definition.Standard (definition : Definition) : Prop where
  name : Token.IsName definition.name
  body : definition.body.AllStandard

def Lexeme.Standard : Lexeme → Prop
  | name text => Token.IsName text
  | literal bytes => ∃ text, Utf8.encode text = bytes
  | charClass _ ranges => ranges ≠ [] ∧ ∀ range ∈ ranges, range.Bounded
  | quantifier min max => Quantifiable min max
  | _ => True

namespace Hex

theorem value?_lt {c : Char} {d : Nat} (read : value? c = some d) : d < 16 := by
  have ordered {a b : Char} (le : a ≤ b) : a.toNat ≤ b.toNat := le
  unfold value? at read
  split_ifs at read with digit lower upper
  · obtain rfl := Option.some.inj read
    have top := ordered digit.2
    exact Nat.lt_of_le_of_lt (Nat.sub_le_sub_right top _) (by decide)
  · obtain rfl := Option.some.inj read
    have top := ordered lower.2
    exact Nat.lt_of_le_of_lt (Nat.add_le_add_right (Nat.sub_le_sub_right top _) 10) (by decide)
  · obtain rfl := Option.some.inj read
    have top := ordered upper.2
    exact Nat.lt_of_le_of_lt (Nat.add_le_add_right (Nat.sub_le_sub_right top _) 10) (by decide)

theorem read?_lt {width n m : Nat} {text rest : List Char} (read : read? width n text = some (m, rest)) :
    m < 16 ^ width * (n + 1) := by
  fun_induction read? width n text with
  | case1 n rest =>
    cases read
    simp
  | case2 => cases read
  | case3 width n c rest d value ih =>
    have small := value?_lt value
    calc m < 16 ^ width * (16 * n + d + 1) := ih read
      _ ≤ 16 ^ width * (16 * (n + 1)) := Nat.mul_le_mul_left _ (by omega)
      _ = 16 ^ (width + 1) * (n + 1) := by rw [pow_succ, mul_assoc]
  | case4 => cases read

end Hex

namespace Token

theorem toNat_lt (c : Char) : c.toNat < 16 ^ 8 := c.val.toNat_lt

theorem escape_lt {text rest : List Char} {n : Nat} (read : escape text = .ok (n, rest)) : n < 16 ^ 8 := by
  unfold escape at read
  split at read
  next => cases read
  next c rest =>
    split at read
    next =>
      cases read
      exact toNat_lt _
    next width _ found =>
      split at read
      next digits =>
        cases read
        have width_le : width ≤ 8 := by
          unfold escapeWidth? at found
          split_ifs at found <;> cases found <;> decide
        have small := Hex.read?_lt digits
        rw [Nat.zero_add, Nat.mul_one] at small
        exact Nat.lt_of_lt_of_le small (Nat.pow_le_pow_right (by decide) width_le)
      next => cases read
    next => cases read

theorem classBound_lt {text rest : List Char} {n : Nat} (read : classBound text = .ok (n, rest)) :
    n < 16 ^ 8 := by
  unfold classBound at read
  split at read
  next => cases read
  next =>
    split_ifs at read
    · exact escape_lt read
    · cases read
      exact toNat_lt _

theorem bounded_classRange {text rest : List Char} {range : CodeRange} (read : classRange text = .ok (range, rest)) :
    range.Bounded := by
  unfold classRange at read
  split at read
  next => cases read
  next first =>
    have single : CodeRange.Bounded ⟨_, _⟩ := ⟨le_rfl, classBound_lt first⟩
    split at read
    next =>
      split_ifs at read
      · cases read
        exact single
      · split at read
        next => cases read
        next second =>
          split_ifs at read with order
          cases read
          exact ⟨Nat.not_lt.mp order, classBound_lt second⟩
    next =>
      cases read
      exact single

theorem bounded_classRanges {text rest : List Char} {ranges : List CodeRange}
    (read : classRanges text = .ok (ranges, rest)) : ∀ range ∈ ranges, range.Bounded := by
  fun_induction classRanges text generalizing ranges rest with
  | case1 =>
    cases read
    simp
  | case2 => cases read
  | case3 => cases read
  | case4 text _ range after first _ others _ found ih =>
    cases read
    exact List.forall_mem_cons.mpr ⟨bounded_classRange first, ih found⟩

theorem quantifiable_rangeBody {start text rest : List Char} {min : Nat} {max : Option Nat}
    (read : rangeBody start text = .ok (min, max, rest)) : Quantifiable min max := by
  simp only [rangeBody] at read
  split at read
  next => cases read
  next =>
    split at read
    next =>
      split_ifs at read with order limit
      cases read
      obtain ⟨small, within⟩ := not_or.mp limit
      refine ⟨Nat.not_lt.mp small, fun bound same => ?_⟩
      rw [Option.mem_def.mp same] at order within
      simp only [Option.any_some, decide_eq_true_eq, Nat.not_lt] at order within
      exact ⟨order, within⟩
    next => cases read

theorem standard_classBody (negated : Bool) (start text : List Char) :
    (classBody negated start text).1.Standard := by
  unfold classBody
  split
  next => trivial
  next => trivial
  next ranges _ inhabited read => exact ⟨inhabited, bounded_classRanges read⟩

theorem standard_sign? {c : Char} {lexeme : Lexeme} (sign : sign? c = some lexeme) : lexeme.Standard := by
  unfold sign? at sign
  split at sign <;> cases sign <;> trivial

theorem standard_read (c : Char) (text : List Char) : (read c text).1.Standard := by
  unfold read
  split
  next sign => exact standard_sign? sign
  next =>
    split_ifs with quote bracket brace start
    · split
      next => trivial
      next body _ _ => exact ⟨body, rfl⟩
    · split <;> exact standard_classBody _ _ _
    · split
      next => trivial
      next found => exact quantifiable_rangeBody found
    · exact ⟨c, text.takeWhile isNamePart, String.toList_ofList, start, fun d member => List.mem_takeWhile_imp member⟩
    · split <;> trivial

theorem standard_scanFrom (attached : Bool) (text : List Char) :
    ∀ token ∈ scanFrom attached text, token.lexeme.Standard := by
  fun_induction scanFrom attached text with
  | case1 => simp
  | case2 attached c rest blank ih => exact ih
  | case3 attached c rest blank lineEnd ih => exact ih
  | case4 attached rest _ _ after found shorter ih => exact ih
  | case5 => exact List.forall_mem_singleton.mpr trivial
  | case6 attached c rest _ _ _ lexeme after found shorter ih =>
    have standard := standard_read c rest
    rw [found] at standard
    exact List.forall_mem_cons.mpr ⟨standard, ih⟩

end Token

namespace Level

structure Standard (level : Level) : Prop where
  alternatives : ∀ e ∈ level.alternatives, e.AllStandard
  items : ∀ e ∈ level.items, e.AllStandard

theorem standard_start (lacking : SyntaxCause) : (Level.start lacking).Standard :=
  ⟨by simp [start], by simp [start]⟩

theorem standard_single {many : List (Expr String) → Expr String} {es : List (Expr String)} (inhabited : es ≠ [])
    (each : ∀ e ∈ es, e.AllStandard) (several : 2 ≤ es.length → (many es).AllStandard) :
    (Expr.single many es).AllStandard := by
  match es with
  | [] => exact absurd rfl inhabited
  | [e] => exact each e (by simp)
  | _ :: _ :: _ => exact several (by simp)

namespace Standard

variable {level : Level} (standard : level.Standard)
include standard

theorem push {item : Expr String} (new : item.AllStandard) : (level.push item).Standard :=
  ⟨standard.alternatives, List.forall_mem_cons.mpr ⟨new, standard.items⟩⟩

theorem sequence (inhabited : level.items ≠ []) : level.sequence.AllStandard := by
  have items : ∀ e ∈ level.items.reverse, e.AllStandard := by simpa using standard.items
  exact standard_single (by simpa using inhabited) items fun several => .intro several items

theorem nextAlternative (inhabited : level.items ≠ []) : level.nextAlternative.Standard :=
  ⟨List.forall_mem_cons.mpr ⟨standard.sequence inhabited, standard.alternatives⟩, by simp [Level.nextAlternative]⟩

theorem close (inhabited : level.items ≠ []) : level.close.AllStandard := by
  have alternatives : ∀ e ∈ (level.sequence :: level.alternatives).reverse, e.AllStandard := by
    intro e member
    rcases List.mem_cons.mp (List.mem_reverse.mp member) with rfl | member
    · exact standard.sequence inhabited
    · exact standard.alternatives e member
  exact standard_single (by simp) alternatives fun several => .intro several alternatives

theorem quantify {min : Nat} {max : Option Nat} (bounds : Quantifiable min max) :
    (level.quantify min max).Standard := by
  unfold Level.quantify
  split
  next => exact standard
  next item items found =>
    have each := standard.items
    rw [found, List.forall_mem_cons] at each
    exact ⟨standard.alternatives, List.forall_mem_cons.mpr ⟨.repetition bounds each.1, each.2⟩⟩

end Standard

end Level

namespace Body

structure Standard (body : Body) : Prop where
  name : Token.IsName body.name
  level : body.level.Standard
  outer : ∀ level ∈ body.outer, level.Standard

theorem standard_start {name : String} (isName : Token.IsName name) : (Body.start name).Standard :=
  ⟨isName, Level.standard_start _, by simp [start]⟩

namespace Standard

variable {body : Body} (standard : body.Standard)
include standard

theorem push {item : Expr String} (new : item.AllStandard) : (body.push item).Standard :=
  ⟨standard.name, standard.level.push new, standard.outer⟩

theorem finish {rest : List Char} {definition : Definition} (finished : body.finish rest = .ok definition) :
    definition.Standard := by
  unfold Body.finish at finished
  split at finished
  next => cases finished
  next inhabited =>
    cases finished
    exact ⟨standard.name, standard.level.close inhabited⟩
  next => cases finished

theorem step {token : Token} (lexeme : token.lexeme.Standard) {after : Body}
    (stepped : body.step token = .ok after) : after.Standard := by
  unfold Body.step at stepped
  split at stepped
  case h_1 text found | h_2 bytes found | h_3 negated ranges found =>
    rw [found] at lexeme
    cases stepped
    exact standard.push (.leaf lexeme rfl)
  case h_5 =>
    cases stepped
    exact ⟨standard.name, Level.standard_start _, List.forall_mem_cons.mpr ⟨standard.level, standard.outer⟩⟩
  case h_6 =>
    split at stepped
    next item items level outer filled surrounding =>
      cases stepped
      have around := standard.outer
      rw [surrounding, List.forall_mem_cons] at around
      exact ⟨standard.name, around.1.push (standard.level.close (by simp [filled])), around.2⟩
    next => cases stepped
  case h_7 =>
    split at stepped
    next => cases stepped
    next inhabited =>
      cases stepped
      exact ⟨standard.name, standard.level.nextAlternative inhabited, standard.outer⟩
  case h_8 min max found =>
    rw [found] at lexeme
    split_ifs at stepped
    cases stepped
    exact ⟨standard.name, standard.level.quantify lexeme, standard.outer⟩
  all_goals cases stepped

end Standard

end Body

namespace Definition

theorem standard_of_tokensFrom {done : List Definition} {reading : Option Body} {tokens : List Token}
    {definitions : List Definition} (read : ofTokensFrom done reading tokens = .ok definitions)
    (lexemes : ∀ token ∈ tokens, token.lexeme.Standard) (before : ∀ d ∈ done, d.Standard)
    (within : ∀ body ∈ reading, body.Standard) : ∀ d ∈ definitions, d.Standard := by
  have opened {text : String} (isName : Token.IsName text) : ∀ body ∈ some (Body.start text), body.Standard := by
    intro body h
    cases h
    exact Body.standard_start isName
  fun_induction ofTokensFrom done reading tokens with
  | case1 done =>
    cases read
    simpa using before
  | case2 done body =>
    cases finished : body.finish [] with
    | error fault =>
      rw [finished] at read
      cases read
    | ok last =>
      rw [finished] at read
      cases read
      simpa [or_imp, forall_and] using ⟨before, (within body rfl).finish finished⟩
  | case3 done token text _ _ _ rest named ih =>
    have isName := lexemes token (by simp)
    rw [named] at isName
    exact ih read (fun t member => lexemes t (by simp [member])) before (opened isName)
  | case4 | case5 | case6 | case8 | case10 | case11 | case13 => cases read
  | case7 done body token text _ _ _ rest named definition finished ih =>
    have isName := lexemes token (by simp)
    rw [named] at isName
    exact ih read (fun t member => lexemes t (by simp [member]))
      (List.forall_mem_cons.mpr ⟨(within body rfl).finish finished, before⟩) (opened isName)
  | case9 done body token rest _ definition finished _ ih =>
    exact ih read (fun t member => lexemes t (by simp [member]))
      (List.forall_mem_cons.mpr ⟨(within body rfl).finish finished, before⟩) (by simp)
  | case12 done body token rest after stepped _ _ ih =>
    apply ih read (fun t member => lexemes t (by simp [member])) before
    intro body h
    cases h
    exact (within _ rfl).step (lexemes _ (by simp)) stepped

theorem standard_of_read {text : List Char} {definitions : List Definition}
    (read : Definition.read text = .ok definitions) : ∀ d ∈ definitions, d.Standard := by
  unfold Definition.read at read
  split at read
  next => cases read
  next => exact standard_of_tokensFrom read (Token.standard_scanFrom true text) (by simp) (by simp)

end Definition

end GuidedDecoding
