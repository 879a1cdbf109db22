import Mathlib
import GuidedDecoding.Proofs.Grammar.Gaps
import GuidedDecoding.Proofs.Grammar.Progress

namespace GuidedDecoding

/-- The second text is the first one with more lines behind it. The first one may have ended its last line. -/
inductive Extends (more : List Char) : List Char → List Char → Prop where
  | ended : Extends more [] ('\n' :: more)
  | line : Extends more ['\n'] ('\n' :: more)
  | cons (c : Char) {text longer : List Char} (rest : Extends more text longer) : Extends more (c :: text) (c :: longer)

namespace Extends

variable {more text longer : List Char}

theorem append (text more : List Char) : Extends more text (text ++ '\n' :: more) := by
  induction text with
  | nil => exact .ended
  | cons c text ih => exact .cons c ih

theorem append_line (text more : List Char) : Extends more (text ++ ['\n']) (text ++ '\n' :: more) := by
  induction text with
  | nil => exact .line
  | cons c text ih => exact .cons c ih

section

variable {c : Char} (inside : c ≠ '\n')
include inside

theorem exists_of_cons (extended : Extends more (c :: text) longer) :
    ∃ rest, longer = c :: rest ∧ Extends more text rest := by
  cases extended with
  | line => exact absurd rfl inside
  | cons _ rest => exact ⟨_, rfl, rest⟩

theorem exists_of_cons_right (extended : Extends more text (c :: longer)) :
    ∃ rest, text = c :: rest ∧ Extends more rest longer := by
  cases extended with
  | ended | line => exact absurd rfl inside
  | cons _ rest => exact ⟨_, rfl, rest⟩

theorem head?_iff (extended : Extends more text longer) : longer.head? = some c ↔ text.head? = some c := by
  cases extended with
  | ended | line => simp [inside.symm]
  | cons d rest => rfl

end

section

variable {p : Char → Bool} (stop : p '\n' = false) (extended : Extends more text longer)
include stop extended

theorem takeWhile_eq : longer.takeWhile p = text.takeWhile p := by
  induction extended with
  | ended | line => simp [stop]
  | cons c _ ih => rw [List.takeWhile_cons, List.takeWhile_cons, ih]

theorem dropWhile : Extends more (text.dropWhile p) (longer.dropWhile p) := by
  induction extended with
  | ended => simpa [stop] using .ended
  | line => simpa [stop] using .line
  | cons c rest ih =>
    rw [List.dropWhile_cons, List.dropWhile_cons]
    split
    · exact ih
    · exact .cons c rest

theorem drop_takeWhile :
    Extends more (text.drop (text.takeWhile p).length) (longer.drop (text.takeWhile p).length) := by
  induction extended with
  | ended => exact .ended
  | line => simpa [stop] using .line
  | cons c rest ih =>
    rw [List.takeWhile_cons]
    split
    · exact ih
    · exact .cons c rest

end

end Extends

def Continues {α : Type} (more : List Char) (short long : Except SyntaxFault (α × List Char)) : Prop :=
  ∀ a rest, short = .ok (a, rest) → ∃ longer, Extends more rest longer ∧ long = .ok (a, longer)

def Lexeme.Sound : Lexeme → Prop
  | brokenAtom _ | brokenQuantifier _ | stray => False
  | _ => True

def Remains (more : List Char) (short long : Lexeme × List Char) : Prop :=
  short.1.Sound → ∃ longer, Extends more short.2 longer ∧ long = (short.1, longer)

theorem Hex.read?_extends {more text longer : List Char} (extended : Extends more text longer) {width n m : Nat}
    {rest : List Char} (found : read? width n text = some (m, rest)) :
    ∃ left, Extends more rest left ∧ read? width n longer = some (m, left) := by
  fun_induction read? width n text generalizing longer with
  | case1 =>
    cases found
    exact ⟨longer, extended, by rw [read?]⟩
  | case2 => cases found
  | case3 width n c text d value ih =>
    have inside : c ≠ '\n' := by
      rintro rfl
      cases value
    obtain ⟨after, rfl, behind⟩ := extended.exists_of_cons inside
    rw [read?, value]
    exact ih behind found
  | case4 => cases found

namespace Token

variable {more text longer : List Char}

theorem continues_escape (extended : Extends more text longer) : Continues more (escape text) (escape longer) := by
  intro n rest read
  cases text with
  | nil => cases read
  | cons c text =>
    have inside : c ≠ '\n' := by
      rintro rfl
      cases read
    obtain ⟨longer, rfl, behind⟩ := extended.exists_of_cons inside
    rw [escape] at read ⊢
    split at read
    next =>
      cases read
      exact ⟨longer, behind, rfl⟩
    next =>
      split at read
      next digits =>
        cases read
        obtain ⟨left, further, digits⟩ := Hex.read?_extends behind digits
        exact ⟨left, further, by simp only [digits]⟩
      next => cases read
    next => cases read

theorem continues_literalBody {quote : Char} (extended : Extends more text longer) (start begun : List Char) :
    Continues more (literalBody quote start text) (literalBody quote begun longer) := by
  intro body rest read
  fun_induction literalBody quote start text generalizing longer body rest with
  | case1 | case2 | case4 | case5 | case7 | case8 => cases read
  | case3 after line =>
    cases read
    obtain ⟨longer, rfl, behind⟩ := extended.exists_of_cons line
    exact ⟨longer, behind, by rw [literalBody, if_neg line, if_pos rfl]⟩
  | case6 after n left escaped _ valid inner last found line other ih =>
    cases read
    obtain ⟨longer, rfl, behind⟩ := extended.exists_of_cons line
    obtain ⟨onward, behind, escaped⟩ := continues_escape behind _ _ escaped
    obtain ⟨further, behind, found⟩ := ih behind _ _ found
    refine ⟨further, behind, ?_⟩
    rw [literalBody_escape other begun escaped, if_pos valid, found]
    rfl
  | case9 c after line other mark inner last found ih =>
    cases read
    obtain ⟨longer, rfl, behind⟩ := extended.exists_of_cons line
    obtain ⟨further, behind, found⟩ := ih behind _ _ found
    refine ⟨further, behind, ?_⟩
    rw [literalBody, if_neg line, if_neg other, if_neg mark, found]

theorem continues_classBound (extended : Extends more text longer) :
    Continues more (classBound text) (classBound longer) := by
  intro n rest read
  cases text with
  | nil => cases read
  | cons c text =>
    rw [classBound] at read
    split_ifs at read with line mark
    · obtain ⟨longer, rfl, behind⟩ := extended.exists_of_cons line
      rw [classBound, if_neg line, if_pos mark]
      exact continues_escape behind _ _ read
    · cases read
      obtain ⟨longer, rfl, behind⟩ := extended.exists_of_cons line
      exact ⟨longer, behind, by rw [classBound, if_neg line, if_neg mark]⟩

theorem continues_classRange (extended : Extends more text longer) :
    Continues more (classRange text) (classRange longer) := by
  intro range rest read
  unfold classRange at read
  split at read
  next => cases read
  next lo left first =>
    obtain ⟨further, behind, first'⟩ := continues_classBound extended _ _ first
    unfold classRange
    simp only [first']
    split at read
    next after =>
      obtain ⟨onward, rfl, later⟩ := behind.exists_of_cons (by decide)
      simp only [later.head?_iff (show ']' ≠ '\n' by decide)]
      split_ifs at read ⊢ with closed
      · cases read
        exact ⟨_, behind, rfl⟩
      · split at read
        next => cases read
        next hi left second =>
          obtain ⟨further, behind, second'⟩ := continues_classBound later _ _ second
          split_ifs at read with order
          cases read
          exact ⟨further, behind, by simp only [second', if_neg order]⟩
    next other =>
      cases read
      refine ⟨further, behind, ?_⟩
      split
      next after =>
        obtain ⟨_, rfl, _⟩ := behind.exists_of_cons_right (by decide)
        exact absurd rfl (other _)
      next => rfl

theorem continues_classRanges (extended : Extends more text longer) :
    Continues more (classRanges text) (classRanges longer) := by
  intro ranges rest read
  fun_induction classRanges text generalizing longer ranges rest with
  | case1 after =>
    cases read
    obtain ⟨longer, rfl, behind⟩ := extended.exists_of_cons (by decide)
    exact ⟨longer, behind, by rw [classRanges]⟩
  | case2 | case3 => cases read
  | case4 text other range after first _ others last found ih =>
    cases read
    obtain ⟨onward, behind, first⟩ := continues_classRange extended _ _ first
    obtain ⟨further, behind, found⟩ := ih behind _ _ found
    have unclosed (after : List Char) : longer ≠ ']' :: after := by
      intro same
      obtain ⟨_, rfl, _⟩ := (same ▸ extended).exists_of_cons_right (by decide)
      exact other _ rfl
    refine ⟨further, behind, ?_⟩
    rw [classRanges_of_classRange unclosed first, found]
    rfl

theorem remains_classBody (negated : Bool) (extended : Extends more text longer) (start begun : List Char) :
    Remains more (classBody negated start text) (classBody negated begun longer) := by
  intro sound
  unfold classBody at sound ⊢
  split at sound
  next => exact sound.elim
  next => exact sound.elim
  next ranges rest inhabited read =>
    obtain ⟨further, behind, read⟩ := continues_classRanges extended _ _ read
    refine ⟨further, behind, ?_⟩
    rw [read]
    cases ranges with
    | nil => exact (inhabited rfl).elim
    | cons => rfl

theorem number?_extends (extended : Extends more text longer) {n : Nat} {rest : List Char}
    (found : number? text = some (n, rest)) : ∃ left, Extends more rest left ∧ number? longer = some (n, left) := by
  have digits : longer.takeWhile Char.isDigit = text.takeWhile Char.isDigit := extended.takeWhile_eq (by decide)
  simp only [number?, digits] at found ⊢
  split_ifs at found ⊢ with none
  cases found
  exact ⟨_, extended.drop_takeWhile (by decide), rfl⟩

theorem number?_extends_none (extended : Extends more text longer) (none : number? text = none) :
    number? longer = Option.none := by
  have digits : longer.takeWhile Char.isDigit = text.takeWhile Char.isDigit := extended.takeWhile_eq (by decide)
  simp only [number?, digits] at none ⊢
  split at none
  next absent => rw [if_pos absent]
  next => cases none

theorem upperBound_extends (min : Nat) (extended : Extends more text longer) :
    ∃ left, Extends more (upperBound min text).2 left ∧ upperBound min longer = ((upperBound min text).1, left) := by
  have blank : Extends more (text.dropWhile isBlank) (longer.dropWhile isBlank) := extended.dropWhile (by decide)
  unfold upperBound
  split
  next rest comma =>
    rw [comma] at blank
    obtain ⟨onward, comma, behind⟩ := blank.exists_of_cons (by decide)
    have later : Extends more (rest.dropWhile isBlank) (onward.dropWhile isBlank) := behind.dropWhile (by decide)
    simp only [comma]
    cases found : number? (rest.dropWhile isBlank) with
    | none => exact ⟨_, later, by rw [number?_extends_none later found]⟩
    | some result =>
      obtain ⟨max, after⟩ := result
      obtain ⟨left, further, found⟩ := number?_extends later found
      exact ⟨left, further, by rw [found]⟩
  next other =>
    refine ⟨longer, extended, ?_⟩
    split
    next rest comma =>
      rw [comma] at blank
      obtain ⟨_, comma, _⟩ := blank.exists_of_cons_right (by decide)
      exact absurd comma (other _)
    next => rfl

theorem rangeBody_extends (extended : Extends more text longer) (start begun : List Char) {min : Nat}
    {max : Option Nat} {rest : List Char} (read : rangeBody start text = .ok (min, max, rest)) :
    ∃ left, Extends more rest left ∧ rangeBody begun longer = .ok (min, max, left) := by
  have blank : Extends more (text.dropWhile isBlank) (longer.dropWhile isBlank) := extended.dropWhile (by decide)
  unfold rangeBody at read ⊢
  dsimp only at read ⊢
  split at read
  next => cases read
  next least after found =>
    obtain ⟨onward, behind, found⟩ := number?_extends blank found
    obtain ⟨further, bound, upper⟩ := upperBound_extends least behind
    have spaces : Extends more ((upperBound least after).2.dropWhile isBlank) (further.dropWhile isBlank) :=
      bound.dropWhile (by decide)
    rw [found]
    simp only [upper]
    split at read
    next last brace =>
      rw [brace] at spaces
      obtain ⟨left, brace, behind⟩ := spaces.exists_of_cons (by decide)
      simp only [brace]
      split_ifs at read with order large
      cases read
      exact ⟨left, behind, by rw [if_neg order, if_neg large]⟩
    next => cases read

theorem remains_read (c : Char) (extended : Extends more text longer) : Remains more (read c text) (read c longer) := by
  intro sound
  unfold read at sound ⊢
  split at sound
  next => exact ⟨longer, extended, rfl⟩
  next =>
    split_ifs at sound ⊢ with quote bracket brace start
    · split at sound
      next => exact sound.elim
      next body rest found =>
        obtain ⟨left, behind, found⟩ := continues_literalBody extended _ (c :: longer) _ _ found
        exact ⟨left, behind, by rw [found]⟩
    · split at sound
      next rest =>
        obtain ⟨onward, rfl, behind⟩ := extended.exists_of_cons (by decide)
        exact remains_classBody true behind _ _ sound
      next other =>
        obtain ⟨left, behind, same⟩ := remains_classBody false extended _ (c :: longer) sound
        refine ⟨left, behind, ?_⟩
        split
        next =>
          obtain ⟨_, rfl, _⟩ := extended.exists_of_cons_right (by decide)
          exact absurd rfl (other _)
        next => exact same
    · split at sound
      next => exact sound.elim
      next min max rest found =>
        obtain ⟨left, behind, found⟩ := rangeBody_extends extended _ (c :: longer) found
        exact ⟨left, behind, by rw [found]⟩
    · have name : longer.takeWhile isNamePart = text.takeWhile isNamePart := extended.takeWhile_eq (by decide)
      exact ⟨_, extended.dropWhile (by decide), by rw [name]⟩
    · split at sound
      next rest =>
        obtain ⟨onward, rfl, behind⟩ := extended.exists_of_cons (by decide)
        obtain ⟨left, rfl, further⟩ := behind.exists_of_cons (by decide)
        exact ⟨left, further, rfl⟩
      next => exact sound.elim

theorem comment?_extends (extended : Extends more text longer) {rest : List Char} (found : comment? text = some rest) :
    ∃ left, Extends more rest left ∧ comment? longer = some left := by
  have words : Extends more (text.dropWhile (!isLineEnd ·)) (longer.dropWhile (!isLineEnd ·)) :=
    extended.dropWhile (by decide)
  unfold comment? at found ⊢
  split at found
  next after line =>
    cases found
    rw [line] at words
    obtain ⟨onward, line, behind⟩ := words.exists_of_cons (by decide)
    rw [line] at words ⊢
    cases behind with
    | line => exact ⟨_, words, rfl⟩
    | cons => exact ⟨_, words, rfl⟩
  next => cases found
  next line alone =>
    cases found
    refine ⟨_, words, ?_⟩
    split
    next same =>
      rw [same] at words
      obtain ⟨_, carriage, _⟩ := words.exists_of_cons_right (by decide)
      exact absurd carriage (alone _)
    next same =>
      rw [same] at words
      obtain ⟨_, carriage, _⟩ := words.exists_of_cons_right (by decide)
      exact absurd carriage (alone _)
    next => rfl

theorem scanFrom_lineEnd {c : Char} (lineEnd : isLineEnd c = true) (attached : Bool) (text : List Char) :
    scanFrom attached (c :: text) = scanFrom false text := by
  have visible : ¬isBlank c = true := by
    intro blank
    simp only [isBlank, isLineEnd, Bool.or_eq_true, beq_iff_eq] at blank lineEnd
    rcases blank with rfl | rfl <;> revert lineEnd <;> decide
  rw [scanFrom, if_neg visible, if_pos lineEnd]

/-- Tokens that are the same but for the places where they stand. -/
inductive Alike : Token → Token → Prop where
  | intro {lexeme : Lexeme} {start start' after after' : List Char} {attached : Bool} :
    Alike ⟨lexeme, start, after, attached⟩ ⟨lexeme, start', after', attached⟩

theorem exists_scanFrom_extends (extended : Extends more text longer) (attached : Bool)
    (sound : ∀ token ∈ scanFrom attached text, token.lexeme.Sound) :
    ∃ tokens, List.Forall₂ Alike (scanFrom attached text) tokens ∧
      scanFrom attached longer = tokens ++ scanFrom false more := by
  have next_line (attached : Bool) : scanFrom attached ('\n' :: more) = scanFrom false more :=
    scanFrom_lineEnd (by decide) attached more
  fun_induction scanFrom attached text generalizing longer with
  | case1 attached =>
    cases extended with
    | ended => exact ⟨[], .nil, next_line attached⟩
  | case2 attached c rest blank ih =>
    have inside : c ≠ '\n' := by
      rintro rfl
      cases blank
    obtain ⟨onward, rfl, behind⟩ := extended.exists_of_cons inside
    rw [scanFrom, if_pos blank]
    exact ih behind sound
  | case3 attached c rest blank lineEnd ih =>
    cases extended with
    | line => exact ⟨[], by rw [scanFrom]; exact .nil, next_line attached⟩
    | cons _ behind =>
      rw [scanFrom, if_neg blank, if_pos lineEnd]
      exact ih behind sound
  | case4 attached rest after found _ _ _ ih =>
    obtain ⟨onward, rfl, behind⟩ := extended.exists_of_cons (by decide)
    obtain ⟨left, further, found⟩ := comment?_extends behind found
    rw [scanFrom_hash, found]
    exact ih further sound
  | case5 attached rest => exact (sound _ (List.mem_singleton.mpr rfl)).elim
  | case6 attached c rest blank lineEnd comment lexeme after found _ ih =>
    have inside : c ≠ '\n' := by
      rintro rfl
      exact lineEnd (by decide)
    have visible : Visible c := ⟨Bool.eq_false_iff.mpr blank, Bool.eq_false_iff.mpr lineEnd, comment⟩
    obtain ⟨onward, rfl, behind⟩ := extended.exists_of_cons inside
    have remains := remains_read c behind
    rw [Remains, found] at remains
    obtain ⟨left, further, read⟩ := remains (sound _ List.mem_cons_self)
    obtain ⟨tokens, alike, scanned⟩ := ih further fun token member => sound token (List.mem_cons_of_mem _ member)
    rw [scanFrom_visible visible, read, scanned]
    exact ⟨⟨lexeme, c :: onward, left, attached⟩ :: tokens, .cons .intro alike, rfl⟩

end Token

end GuidedDecoding
