import Mathlib
import GuidedDecoding.Grammar.Printer
import GuidedDecoding.Grammar.Token
import GuidedDecoding.Proofs.Text.Utf8

namespace GuidedDecoding

namespace Hex

theorem value?_digitChar {d : Nat} (small : d < 16) : value? (Nat.digitChar d) = some d := by
  decide +revert

theorem read?_digits {width n : Nat} (bound : n < 16 ^ width) (more before : Nat) (rest : List Char) :
    read? (width + more) before (digits width n ++ rest) = read? more (16 ^ width * before + n) rest := by
  induction width generalizing n more rest with
  | zero =>
    obtain rfl : n = 0 := Nat.lt_one_iff.mp bound
    simp [digits]
  | succ width ih =>
    have upper : n / 16 < 16 ^ width := Nat.div_lt_of_lt_mul (by rwa [← Nat.pow_succ'])
    have last : n % 16 < 16 := Nat.mod_lt n (by decide)
    rw [digits, List.append_assoc, Nat.add_right_comm, Nat.add_assoc, ih upper, List.cons_append,
      List.nil_append, read?, value?_digitChar last]
    dsimp only
    congr 1
    have parts := Nat.div_add_mod n 16
    rw [Nat.pow_succ', Nat.mul_add, Nat.mul_assoc]
    omega

theorem value?_toLower (c : Char) : value? c.toLower = value? c := by
  by_cases upper : c.isUpper = true
  · have bounds : 65 ≤ c.toNat ∧ c.toNat ≤ 90 := by
      simpa [Char.isUpper, Char.le_def, UInt32.le_iff_toNat_le] using upper
    obtain ⟨least, most⟩ := bounds
    have same := Char.ofNat_toNat c
    rw [← same]
    generalize c.toNat = n at least most
    decide +revert
  · rw [Char.toLower_eq_of_not_isUpper upper]

theorem read?_toLower {width : Nat} (n : Nat) {text : List Char} (within : text.length ≤ width) (rest : List Char) :
    read? width n (text.map Char.toLower ++ rest) = read? width n (text ++ rest) := by
  induction text generalizing width n with
  | nil => rfl
  | cons c text ih =>
    rw [List.length_cons] at within
    obtain ⟨width, rfl⟩ := Nat.exists_eq_add_of_le' (Nat.zero_lt_of_lt within)
    have others (m : Nat) := ih m (Nat.succ_le_succ_iff.mp within)
    simp only [List.map_cons, List.cons_append, read?, value?_toLower, others]

theorem length_digits (width n : Nat) : (digits width n).length = width := by
  induction width generalizing n with
  | zero => rfl
  | succ width ih => rw [digits, List.length_append, ih, List.length_singleton]

theorem map_toLower_digits (width n : Nat) : (digits width n).map Char.toLower = digits width n := by
  have lower {d : Nat} (small : d < 16) : (Nat.digitChar d).toLower = Nat.digitChar d := by
    decide +revert
  induction width generalizing n with
  | zero => rfl
  | succ width ih =>
    rw [digits, List.map_append, ih, List.map_singleton, lower (Nat.mod_lt n (by decide))]

end Hex

/-- The bounds are in order, and eight hexadecimal digits are enough for them. -/
structure CodeRange.Bounded (range : CodeRange) : Prop where
  order : range.lo ≤ range.hi
  limit : range.hi < 16 ^ 8

namespace Spelling

def letters : List (Char × Char) :=
  [('n', '\n'), ('r', '\r'), ('t', '\t'), ('\\', '\\'), ('"', '"'), ('\'', '\''), ('[', '['), (']', ']'), ('-', '-'),
    ('^', '^'), ('/', '/')]

def widths : List (Char × Nat) := [('x', 2), ('u', 4), ('U', 8)]

inductive Escapes : Nat → List Char → Prop where
  | short {letter c : Char} (listed : (letter, c) ∈ letters) : Escapes c.toNat [letter]
  | digits {letter : Char} {width n : Nat} {digits : List Char} (listed : (letter, width) ∈ widths)
    (bound : n < 16 ^ width) (written : digits.map Char.toLower = Hex.digits width n) : Escapes n (letter :: digits)

/-- A code point as its character, unless that is one of the special ones, or as an escape. -/
inductive Spells (special : List Char) : Nat → List Char → Prop where
  | plain {c : Char} (ordinary : c ∉ special) : Spells special c.toNat [c]
  | escaped {n : Nat} {text : List Char} (escapes : Escapes n text) : Spells special n ('\\' :: text)

inductive Concatenates {α : Type} (spells : α → List Char → Prop) : List α → List Char → Prop where
  | nil : Concatenates spells [] []
  | cons {a : α} {as : List α} {text others : List Char} (first : spells a text)
    (rest : Concatenates spells as others) : Concatenates spells (a :: as) (text ++ others)

theorem Concatenates.flatMap {α : Type} {spells : α → List Char → Prop} {text : α → List Char} {as : List α}
    (each : ∀ a ∈ as, spells a (text a)) : Concatenates spells as (as.flatMap text) := by
  induction as with
  | nil => exact .nil
  | cons a as ih =>
    rw [List.flatMap_cons]
    exact .cons (each a (by simp)) (ih fun b member => each b (by simp [member]))

def inLiteral (quote : Char) : List Char := ['\n', '\\', quote]

def inClass : List Char := ['\n', '\\', ']', '-', '^']

abbrev SpellsLiteral (quote : Char) : List Char → List Char → Prop :=
  Concatenates fun c => Spells (inLiteral quote) c.toNat

inductive SpellsRange : CodeRange → List Char → Prop where
  | single {n : Nat} {text : List Char} (spelled : Spells inClass n text) : SpellsRange ⟨n, n⟩ text
  | pair {lo hi : Nat} {lower upper : List Char} (order : lo ≤ hi) (least : Spells inClass lo lower)
    (most : Spells inClass hi upper) : SpellsRange ⟨lo, hi⟩ (lower ++ '-' :: upper)

abbrev SpellsRanges : List CodeRange → List Char → Prop := Concatenates SpellsRange

end Spelling

open Spelling

namespace Token

theorem escape_of_escapes {n : Nat} {text : List Char} (escapes : Escapes n text) (rest : List Char) :
    escape (text ++ rest) = .ok (n, rest) := by
  have short : ∀ pair ∈ letters, simpleEscape? pair.1 = some pair.2 := by decide
  have long : ∀ pair ∈ widths, simpleEscape? pair.1 = none ∧ escapeWidth? pair.1 = some pair.2 := by decide
  cases escapes with
  | short listed =>
    have known := short _ listed
    dsimp only at known
    simp [escape, known]
  | @digits letter width n digits listed bound written =>
    obtain ⟨other, known⟩ := long _ listed
    dsimp only at other known
    have within : digits.length ≤ width := by
      rw [← List.length_map Char.toLower, written, Hex.length_digits]
    have read := Hex.read?_digits bound 0 0 rest
    rw [← written, Nat.mul_zero, Nat.zero_add, Nat.add_zero, Hex.read?_toLower 0 within] at read
    simp [escape, other, known, read, Hex.read?]

theorem literalBody_escape {quote : Char} (other : '\\' ≠ quote) (start : List Char) {n : Nat} {text after : List Char}
    (read : escape text = .ok (n, after)) :
    literalBody quote start ('\\' :: text) =
      if n.isValidChar then (literalBody quote start after).map fun read => (Char.ofNat n :: read.1, read.2)
      else .error ⟨.notScalarValue, '\\' :: text⟩ := by
  rw [literalBody, if_neg (by decide), if_neg other, if_pos rfl]
  split
  next failed => cases failed.symm.trans read
  next found =>
    cases found.symm.trans read
    congr 1
    cases literalBody quote start after <;> rfl

section

variable {quote : Char} (known : quote = '"' ∨ quote = '\'') (start : List Char)
include known

theorem literalBody_spells {c : Char} {text : List Char} (spelled : Spells (inLiteral quote) c.toNat text)
    (rest : List Char) :
    literalBody quote start (text ++ rest) =
      (literalBody quote start rest).map fun read => (c :: read.1, read.2) := by
  generalize code : c.toNat = n at spelled
  cases spelled with
  | @plain d ordinary =>
    obtain rfl := Char.toNat_inj.mp code
    simp only [inLiteral, List.mem_cons, List.not_mem_nil, or_false, not_or] at ordinary
    obtain ⟨line, mark, other⟩ := ordinary
    rw [List.singleton_append, literalBody, if_neg line, if_neg other, if_neg mark]
    cases literalBody quote start rest <;> rfl
  | @escaped n text escapes =>
    have read := escape_of_escapes escapes rest
    have other : ¬('\\' = quote) := by rcases known with rfl | rfl <;> decide
    rw [List.cons_append, literalBody_escape other start read, ← code,
      if_pos (show c.toNat.isValidChar from c.valid), Char.ofNat_toNat]

theorem literalBody_spelled {text inside : List Char} (spelled : SpellsLiteral quote text inside) (rest : List Char) :
    literalBody quote start (inside ++ quote :: rest) = .ok (text, rest) := by
  induction spelled with
  | nil =>
    have line : ¬quote = '\n' := by rcases known with rfl | rfl <;> decide
    rw [List.nil_append, literalBody, if_neg line, if_pos rfl]
  | cons first _ ih =>
    rw [List.append_assoc, literalBody_spells known start first, ih]
    rfl

end

/-- A literal is read as the text that is spelled between its quotes. -/
theorem read_spelledLiteral {quote : Char} (known : quote = '"' ∨ quote = '\'') {text inside : List Char}
    (spelled : SpellsLiteral quote text inside) (rest : List Char) :
    read quote (inside ++ quote :: rest) = (.literal (Utf8.encode text), rest) := by
  have sign : sign? quote = none := by rcases known with rfl | rfl <;> rfl
  unfold read
  simp only [sign, known, if_true, literalBody_spelled known _ spelled]

theorem classBound_spells {n : Nat} {text : List Char} (spelled : Spells inClass n text) (rest : List Char) :
    classBound (text ++ rest) = .ok (n, rest) := by
  cases spelled with
  | plain ordinary =>
    simp only [inClass, List.mem_cons, List.not_mem_nil, or_false, not_or] at ordinary
    rw [List.singleton_append, classBound, if_neg ordinary.1, if_neg ordinary.2.1]
  | escaped escapes =>
    rw [List.cons_append, classBound, if_neg (by decide), if_pos rfl, escape_of_escapes escapes]

theorem exists_head_of_spells {n : Nat} {text : List Char} (spelled : Spells inClass n text) :
    ∃ c more, text = c :: more ∧ c ∉ [']', '-', '^'] := by
  cases spelled with
  | @plain c ordinary =>
    exact ⟨c, [], rfl, fun listed => ordinary (List.mem_cons_of_mem _ (List.mem_cons_of_mem _ listed))⟩
  | escaped => exact ⟨_, _, rfl, by decide⟩

theorem exists_head_of_spellsRange {range : CodeRange} {text : List Char} (spelled : SpellsRange range text) :
    ∃ c more, text = c :: more ∧ c ∉ [']', '-', '^'] := by
  cases spelled with
  | single spelled => exact exists_head_of_spells spelled
  | @pair lo hi lower upper _ least _ =>
    obtain ⟨c, more, written, other⟩ := exists_head_of_spells least
    exact ⟨c, more ++ '-' :: upper, by rw [written]; rfl, other⟩

theorem classRange_spells {range : CodeRange} {text : List Char} (spelled : SpellsRange range text)
    {rest : List Char} (next : rest.head? ≠ some '-') : classRange (text ++ rest) = .ok (range, rest) := by
  cases spelled with
  | single spelled =>
    rw [classRange, classBound_spells spelled]
    dsimp only
    split
    next after => exact absurd rfl next
    next => rfl
  | @pair lo hi lower upper order least most =>
    obtain ⟨c, more, written, other⟩ := exists_head_of_spells most
    have closes : ¬(upper ++ rest).head? = some ']' := by
      rw [written]
      simp only [List.cons_append, List.head?_cons, Option.some.injEq]
      rintro rfl
      exact other (by decide)
    rw [classRange, List.append_assoc, classBound_spells least]
    simp only [List.cons_append, if_neg closes, classBound_spells most, if_neg (Nat.not_lt.mpr order)]

theorem head?_of_spellsRanges {ranges : List CodeRange} {inside : List Char} (spelled : SpellsRanges ranges inside)
    (rest : List Char) : ∀ c ∈ (inside ++ ']' :: rest).head?, c ≠ '-' ∧ c ≠ '^' := by
  cases spelled with
  | nil =>
    intro c member
    obtain rfl := Option.some.inj member
    decide
  | cons first _ =>
    obtain ⟨c, more, rfl, other⟩ := exists_head_of_spellsRange first
    intro d member
    obtain rfl := Option.some.inj member
    exact ⟨fun same => other (by simp [same]), fun same => other (by simp [same])⟩

theorem classRanges_of_classRange {text rest : List Char} {range : CodeRange} (unclosed : ∀ after, text ≠ ']' :: after)
    (read : classRange text = .ok (range, rest)) :
    classRanges text = (classRanges rest).map fun read => (range :: read.1, read.2) := by
  rw [classRanges]
  · split
    next failed => cases failed.symm.trans read
    next found =>
      cases found.symm.trans read
      cases classRanges rest <;> rfl
  · exact unclosed

theorem classRanges_spelled {ranges : List CodeRange} {inside : List Char} (spelled : SpellsRanges ranges inside)
    (rest : List Char) : classRanges (inside ++ ']' :: rest) = .ok (ranges, rest) := by
  induction spelled with
  | nil => rw [List.nil_append, classRanges]
  | @cons range ranges text others first further ih =>
    have next : (others ++ ']' :: rest).head? ≠ some '-' := fun same =>
      (head?_of_spellsRanges further rest '-' same).1 rfl
    have read := classRange_spells first next
    obtain ⟨c, more, rfl, other⟩ := exists_head_of_spellsRange first
    rw [List.append_assoc]
    rw [List.cons_append] at read ⊢
    have unclosed (after : List Char) : c :: (more ++ (others ++ ']' :: rest)) ≠ ']' :: after := fun same =>
      other (by rw [(List.cons.inj same).1]; decide)
    rw [classRanges_of_classRange unclosed read, ih]
    rfl

theorem read_spelledClass (negated : Bool) {ranges : List CodeRange} (inhabited : ranges ≠ []) {inside : List Char}
    (spelled : SpellsRanges ranges inside) (rest : List Char) :
    read '[' ((if negated then ['^'] else []) ++ inside ++ ']' :: rest) = (.charClass negated ranges, rest) := by
  have body (start : List Char) : classBody negated start (inside ++ ']' :: rest) = (.charClass negated ranges, rest) := by
    rw [classBody, classRanges_spelled spelled]
    cases ranges with
    | nil => exact absurd rfl inhabited
    | cons range ranges => rfl
  have sign : sign? '[' = none := rfl
  have quote : ¬('[' = '"' ∨ '[' = '\'') := by decide
  unfold read
  simp only [sign, if_neg quote, if_true]
  cases negated with
  | true => exact body _
  | false =>
    rw [if_neg (by decide), List.nil_append]
    split
    next after same =>
      exact absurd rfl (head?_of_spellsRanges spelled rest '^' (by rw [same]; rfl)).2
    next => exact body _

end Token

namespace Escape

theorem bytes_encode (text : List Char) : bytes (Utf8.encode text) = text.flatMap char := by
  induction text with
  | nil => rw [Utf8.encode_nil, bytes, List.flatMap_nil]
  | cons c text ih =>
    have first := Utf8.decodeChar?_encode c (Utf8.encode text)
    have bytes_char : ∀ bs, Utf8.decodeChar? bs = some (c, Utf8.encode text) →
        bytes bs = char c ++ bytes (Utf8.encode text) := by
      intro bs found
      cases bs with
      | nil => cases found
      | cons b rest =>
        rw [bytes]
        split
        next c' after read =>
          rw [found] at read
          cases read
          rfl
        next none => rw [found] at none; cases none
    rw [Utf8.encode_cons, bytes_char _ first, ih, List.flatMap_cons]

theorem spells_char {special : List Char} {c : Char}
    (ordinary : c ∈ special → c ∈ ['\n', '\\', '"']) : Spells special c.toNat (char c) := by
  have short {letter d : Char} (listed : (letter, d) ∈ letters) (same : c = d) :
      Spells special c.toNat ['\\', letter] := same ▸ .escaped (.short listed)
  unfold char
  split_ifs with line carriage tab mark quotation control
  · exact short (by decide) line
  · exact short (by decide) carriage
  · exact short (by decide) tab
  · exact short (by decide) mark
  · exact short (by decide) quotation
  · have bound : c.toNat < 16 ^ 2 := by
      simp only [isControl, Bool.or_eq_true, Bool.and_eq_true, decide_eq_true_eq] at control
      omega
    exact .escaped (.digits (by decide) bound (Hex.map_toLower_digits 2 c.toNat))
  · exact .plain fun listed => by simpa [line, mark, quotation] using ordinary listed

theorem spells_bytes (text : List Char) : SpellsLiteral '"' text (bytes (Utf8.encode text)) := by
  rw [bytes_encode]
  exact .flatMap fun c _ => spells_char id

theorem spells_classChar {n : Nat} (bound : n < 16 ^ 8) : Spells inClass n (classChar n) := by
  unfold classChar
  split_ifs with valid
  · have code : (Char.ofNat n).toNat = n := by rw [Char.toNat_ofNat, if_pos valid]
    dsimp only
    generalize Char.ofNat n = c at code
    subst code
    have escaped : (c, c) ∈ letters → Spells inClass c.toNat ['\\', c] := fun listed => .escaped (.short listed)
    split_ifs with listed
    · exact escaped (by rcases listed with rfl | rfl | rfl <;> decide)
    · refine spells_char fun special => ?_
      simp only [inClass, List.mem_cons, List.not_mem_nil, or_false] at special ⊢
      tauto
  · exact .escaped (.digits (by decide) bound (Hex.map_toLower_digits 8 n))

theorem spells_range {range : CodeRange} (bounded : range.Bounded) : SpellsRange range (Printer.range range) := by
  obtain ⟨lo, hi⟩ := range
  obtain ⟨order, limit⟩ := bounded
  have least := spells_classChar (Nat.lt_of_le_of_lt order limit)
  unfold Printer.range
  split_ifs with same
  · obtain rfl : lo = hi := same
    exact .single least
  · exact .pair order least (spells_classChar limit)

theorem spells_ranges {ranges : List CodeRange} (bounded : ∀ range ∈ ranges, range.Bounded) :
    SpellsRanges ranges (ranges.flatMap Printer.range) := .flatMap fun range member => spells_range (bounded range member)

end Escape

end GuidedDecoding
