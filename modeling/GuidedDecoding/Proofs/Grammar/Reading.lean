import Mathlib
import GuidedDecoding.Grammar.Definition
import GuidedDecoding.Proofs.Text.Escape

namespace GuidedDecoding

namespace Token

def IsName (name : String) : Prop :=
  ∃ c part, name.toList = c :: part ∧ isNameStart c = true ∧ ∀ d ∈ part, isNamePart d = true

instance (name : String) : Decidable (IsName name) :=
  decidable_of_iff ((name.toList.head?.any isNameStart && name.toList.tail.all isNamePart) = true) <| by
    cases spelled : name.toList <;> simp [IsName, spelled]

structure Visible (c : Char) : Prop where
  blank : isBlank c = false
  lineEnd : isLineEnd c = false
  comment : c ≠ '#'

/-- A character at which a token begins that is not the defining sign. -/
structure Begins (c : Char) : Prop extends Visible c where
  defines : c ≠ ':'

instance (c : Char) : Decidable (Visible c) :=
  decidable_of_iff (isBlank c = false ∧ isLineEnd c = false ∧ c ≠ '#')
    ⟨fun h => ⟨h.1, h.2.1, h.2.2⟩, fun h => ⟨h.blank, h.lineEnd, h.comment⟩⟩

instance (c : Char) : Decidable (Begins c) :=
  decidable_of_iff (Visible c ∧ c ≠ ':') ⟨fun h => ⟨h.1, h.2⟩, fun h => ⟨h.toVisible, h.defines⟩⟩

theorem begins_of_isNameStart {c : Char} (start : isNameStart c = true) : Begins c where
  blank := by
    rw [isBlank, Bool.or_eq_false_iff, beq_eq_false_iff_ne, beq_eq_false_iff_ne]
    exact ⟨by rintro rfl; revert start; decide, by rintro rfl; revert start; decide⟩
  lineEnd := by
    rw [isLineEnd, Bool.or_eq_false_iff, beq_eq_false_iff_ne, beq_eq_false_iff_ne]
    exact ⟨by rintro rfl; revert start; decide, by rintro rfl; revert start; decide⟩
  comment := by rintro rfl; revert start; decide
  defines := by rintro rfl; revert start; decide

theorem scanFrom_visible {c : Char} (visible : Visible c) (attached : Bool) (text : List Char) :
    scanFrom attached (c :: text) =
      ⟨(read c text).1, c :: text, (read c text).2, attached⟩ :: scanFrom true (read c text).2 := by
  rw [scanFrom, if_neg (by simp [visible.blank]), if_neg (by simp [visible.lineEnd]), if_neg visible.comment]

theorem scanFrom_blanks {margin : List Char} (blank : ∀ c ∈ margin, isBlank c = true) (attached : Bool)
    (text : List Char) : scanFrom attached (margin ++ text) = scanFrom attached text := by
  induction margin with
  | nil => rfl
  | cons c margin ih =>
    rw [List.cons_append, scanFrom, if_pos (blank c (by simp)), ih fun d member => blank d (by simp [member])]

theorem read_ne_defines {c : Char} (other : c ≠ ':') (text : List Char) : (read c text).1 ≠ .defines := by
  unfold read
  split
  next sign found =>
    rintro rfl
    unfold sign? at found
    split at found <;> cases found
  next =>
    split_ifs
    · split <;> simp
    · split <;> (unfold classBody; split <;> simp)
    · split <;> simp
    · simp
    · split
      · exact absurd rfl other
      · simp

/-- What may stand behind a name: nothing that would continue it, nor the defining sign. -/
structure Ends (rest : List Char) : Prop where
  part : ∀ c ∈ rest.head?, isNamePart c = false
  next : ∀ attached, ∀ token ∈ (scanFrom attached rest).head?, token.lexeme ≠ .defines

theorem next_of_begins {c : Char} (begins : Begins c) (rest : List Char) (attached : Bool) :
    ∀ token ∈ (scanFrom attached (c :: rest)).head?, token.lexeme ≠ .defines := by
  rw [scanFrom_visible begins.toVisible]
  intro token member
  obtain rfl := Option.some.inj member
  exact read_ne_defines begins.defines rest

theorem ends_of_begins {c : Char} (begins : Begins c) (part : isNamePart c = false) (rest : List Char) :
    Ends (c :: rest) where
  part d member := by
    obtain rfl := Option.some.inj member
    exact part
  next := next_of_begins begins rest

section

variable {p : Char → Bool} {front rest : List Char} (all : ∀ c ∈ front, p c = true)
  (stop : ∀ c ∈ rest.head?, p c = false)
include all stop

theorem takeWhile_stop : (front ++ rest).takeWhile p = front := by
  rw [List.takeWhile_append_of_pos all]
  cases rest with
  | nil => rw [List.takeWhile_nil, List.append_nil]
  | cons c rest => rw [List.takeWhile_cons, stop c rfl, if_neg (by decide), List.append_nil]

theorem dropWhile_stop : (front ++ rest).dropWhile p = rest := by
  rw [List.dropWhile_append_of_pos all]
  cases rest with
  | nil => rfl
  | cons c rest => rw [List.dropWhile_cons, stop c rfl, if_neg (by decide)]

end

theorem read_name {c : Char} {part rest : List Char} (start : isNameStart c = true)
    (all : ∀ d ∈ part, isNamePart d = true) (stop : ∀ d ∈ rest.head?, isNamePart d = false) :
    read c (part ++ rest) = (.name (String.ofList (c :: part)), rest) := by
  have sign : sign? c = none := by
    unfold sign?
    split <;> first | rfl | (revert start; decide)
  have quote : ¬(c = '"' ∨ c = '\'') := by rintro (rfl | rfl) <;> revert start <;> decide
  have bracket : c ≠ '[' := by rintro rfl; revert start; decide
  have brace : c ≠ '\x7b' := by rintro rfl; revert start; decide
  unfold read
  simp only [sign, if_neg quote, if_neg bracket, if_neg brace, if_pos start, takeWhile_stop all stop,
    dropWhile_stop all stop]

/-- What is printed for a text, or for ranges whose bounds are in order, is read back as one token, and whatever
stands behind it is left to be read. The bounds need not be characters, and the signs that mean something in a literal
or in a class may stand at any place. -/
theorem scanFrom_printed (attached : Bool) (rest : List Char) :
    (∀ text : List Char, scanFrom attached (Printer.literal (Utf8.encode text) ++ rest) =
      ⟨.literal (Utf8.encode text), Printer.literal (Utf8.encode text) ++ rest, rest, attached⟩ ::
        scanFrom true rest) ∧
    ∀ (negated : Bool) (ranges : List CodeRange), ranges ≠ [] →
      (∀ range ∈ ranges, range.lo ≤ range.hi ∧ range.hi < 2 ^ 32) →
      scanFrom attached (Printer.charClass negated ranges ++ rest) =
        ⟨.charClass negated ranges, Printer.charClass negated ranges ++ rest, rest, attached⟩ ::
          scanFrom true rest := by
  constructor
  · intro text
    have read := read_spelledLiteral (.inl rfl) (Escape.spells_bytes text) rest
    have opened : Printer.literal (Utf8.encode text) ++ rest =
        '"' :: (Escape.bytes (Utf8.encode text) ++ '"' :: rest) := by simp [Printer.literal]
    rw [opened, scanFrom_visible (by decide), read]
  · intro negated ranges inhabited bounded
    have spelled := Escape.spells_ranges fun range member => ⟨(bounded range member).1, (bounded range member).2⟩
    have read := read_spelledClass negated inhabited spelled rest
    have opened : Printer.charClass negated ranges ++ rest =
        '[' :: ((if negated then ['^'] else []) ++ ranges.flatMap Printer.range ++ ']' :: rest) := by
      simp [Printer.charClass]
    rw [opened, scanFrom_visible (by decide), read]

theorem scanFrom_printed_marks :
    (∀ range ∈ [⟨45, 94⟩, ⟨93, 93⟩, ⟨0xD800, 0xDFFF⟩, ⟨0, 0xFFFFFFFF⟩],
      CodeRange.lo range ≤ range.hi ∧ range.hi < 2 ^ 32) ∧
    scanFrom false "[^\\--\\^\\]\\U0000d800-\\U0000dfff\\x00-\\Uffffffff]-]\"".toList =
      ⟨.charClass true [⟨45, 94⟩, ⟨93, 93⟩, ⟨0xD800, 0xDFFF⟩, ⟨0, 0xFFFFFFFF⟩],
        "[^\\--\\^\\]\\U0000d800-\\U0000dfff\\x00-\\Uffffffff]-]\"".toList, "-]\"".toList, false⟩ ::
          scanFrom true "-]\"".toList := by
  refine ⟨by decide, ?_⟩
  exact (scanFrom_printed false "-]\"".toList).2 true
    [⟨45, 94⟩, ⟨93, 93⟩, ⟨0xD800, 0xDFFF⟩, ⟨0, 0xFFFFFFFF⟩] (by decide) (by decide)

end Token

/-- Bounds that a repetition can be written with. -/
def Quantifiable (min : Nat) (max : Option Nat) : Prop :=
  min ≤ maxRepetition ∧ ∀ bound ∈ max, min ≤ bound ∧ bound ≤ maxRepetition

instance (min : Nat) (max : Option Nat) : Decidable (Quantifiable min max) :=
  inferInstanceAs (Decidable (_ ∧ ∀ bound ∈ max, min ≤ bound ∧ bound ≤ maxRepetition))

namespace Spelling

inductive SpellsQuantifier : Nat → Option Nat → List Char → Prop where
  | star : SpellsQuantifier 0 none ['*']
  | plus : SpellsQuantifier 1 none ['+']
  | option : SpellsQuantifier 0 (some 1) ['?']
  | exactly (n : Nat) : SpellsQuantifier n (some n) ('\x7b' :: Printer.number n ++ ['\x7d'])
  | atLeast (n : Nat) : SpellsQuantifier n none ('\x7b' :: Printer.number n ++ [',', '\x7d'])
  | between (n m : Nat) : SpellsQuantifier n (some m) ('\x7b' :: Printer.number n ++ ',' :: Printer.number m ++ ['\x7d'])

theorem spells_quantifier (min : Nat) (max : Option Nat) : SpellsQuantifier min max (Printer.quantifier min max) := by
  unfold Printer.quantifier
  split
  · exact .star
  · exact .plus
  · exact .option
  · exact .atLeast _
  · split_ifs with same
    · exact same ▸ .exactly _
    · exact .between _ _

end Spelling

namespace Token

theorem scanFrom_space (attached : Bool) (text : List Char) :
    scanFrom attached (' ' :: text) = scanFrom attached text := by rw [scanFrom, if_pos (by decide)]

theorem number?_toDigits (n : Nat) {rest : List Char} (stop : ∀ c ∈ rest.head?, c.isDigit = false) :
    number? (Printer.number n ++ rest) = if numberLimit ≤ n then none else some (n, rest) := by
  have digit : ∀ c ∈ Printer.number n, c.isDigit = true := fun c member =>
    Nat.isDigit_of_mem_toDigits (by decide) (by decide) member
  have value : (Printer.number n).foldl (fun n d => 10 * n + (d.toNat - '0'.toNat)) 0 = n :=
    Nat.ofDigitChars_toDigits (by decide) (by decide)
  have written : Printer.number n ≠ [] := Nat.toDigits_ne_nil
  rw [number?, takeWhile_stop digit stop, value, List.drop_left]
  simp only [written, false_or]

theorem dropWhile_number (n : Nat) (rest : List Char) :
    (Printer.number n ++ rest).dropWhile isBlank = Printer.number n ++ rest := by
  obtain ⟨c, digits, written⟩ := List.exists_cons_of_ne_nil (Nat.toDigits_ne_nil (n := n) (b := 10))
  have digit : c.isDigit = true :=
    Nat.isDigit_of_mem_toDigits (by decide) (by decide) (written ▸ List.mem_cons_self)
  have visible : isBlank c = false := by
    rw [isBlank, Bool.or_eq_false_iff, beq_eq_false_iff_ne, beq_eq_false_iff_ne]
    exact ⟨by rintro rfl; revert digit; decide, by rintro rfl; revert digit; decide⟩
  rw [Printer.number, written, List.cons_append, List.dropWhile_cons, visible, if_neg (by decide)]

section

variable (start : List Char) {min : Nat} {max : Option Nat} {more rest : List Char}
  (stop : ∀ c ∈ more.head?, c.isDigit = false) (upper : upperBound min more = (max, '\x7d' :: rest))
include stop upper

theorem rangeBody_eq (small : min < numberLimit) :
    rangeBody start (Printer.number min ++ more) =
      if max.any (· < min) then .error ⟨.rangeOrder, start⟩
      else if maxRepetition < min ∨ max.any (maxRepetition < ·) then .error ⟨.rangeTooLarge, start⟩
      else .ok (min, max, rest) := by
  have visible : isBlank '\x7d' = false := by decide
  rw [rangeBody]
  dsimp only
  rw [dropWhile_number, number?_toDigits min stop, if_neg (Nat.not_le.mpr small)]
  dsimp only
  rw [upper]
  dsimp only
  rw [List.dropWhile_cons, visible, if_neg (by decide)]
  rfl

theorem rangeBody_number (bounds : Quantifiable min max) :
    rangeBody start (Printer.number min ++ more) = .ok (min, max, rest) := by
  obtain ⟨small, within⟩ := bounds
  have ordered : ¬max.any (· < min) = true := by
    cases max with
    | none => simp
    | some bound => simpa using (within bound rfl).1
  have inLimit : ¬(maxRepetition < min ∨ max.any (maxRepetition < ·) = true) := by
    cases max with
    | none => simpa using small
    | some bound => simpa using ⟨small, (within bound rfl).2⟩
  rw [rangeBody_eq start stop upper (Nat.lt_of_le_of_lt small (by decide)), if_neg ordered, if_neg inLimit]

/-- A range in braces is refused if a repetition cannot have it. -/
theorem rangeBody_refused (refused : ¬Quantifiable min max) :
    ∃ fault, rangeBody start (Printer.number min ++ more) = .error fault := by
  by_cases small : min < numberLimit
  · rw [rangeBody_eq start stop upper small]
    split_ifs with crossed exceeded
    · exact ⟨_, rfl⟩
    · exact ⟨_, rfl⟩
    · refine absurd ?_ refused
      obtain ⟨small, inLimit⟩ := not_or.mp exceeded
      refine ⟨Nat.not_lt.mp small, fun bound same => ?_⟩
      obtain rfl := Option.mem_def.mp same
      simp only [Option.any_some, decide_eq_true_eq, Nat.not_lt] at crossed inLimit
      exact ⟨crossed, inLimit⟩
  · rw [rangeBody]
    dsimp only
    rw [dropWhile_number, number?_toDigits min stop, if_pos (Nat.not_lt.mp small)]
    exact ⟨_, rfl⟩

end

theorem read_brace (text : List Char) :
    read '\x7b' text =
      match rangeBody ('\x7b' :: text) text with
      | .error fault => (.brokenQuantifier fault, [])
      | .ok (min, max, rest) => (.quantifier min max, rest) := rfl

/-- A text that begins with a quantifier, which is broken if a repetition cannot have its bounds. -/
structure QuantifierAt (min : Nat) (max : Option Nat) (rest : List Char) (c : Char) (text : List Char) :
    Prop where
  begins : Begins c
  part : isNamePart c = false
  read : Quantifiable min max → read c text = (.quantifier min max, rest)
  refused : ¬Quantifiable min max → ∃ fault, (Token.read c text).1 = .brokenQuantifier fault

theorem quantifierAt_range {min : Nat} {max : Option Nat} (more : List Char) {rest : List Char}
    (stop : ∀ c ∈ more.head?, c.isDigit = false) (upper : upperBound min more = (max, '\x7d' :: rest)) :
    QuantifierAt min max rest '\x7b' (Printer.number min ++ more) where
  begins := by decide
  part := by decide
  read bounds := by rw [read_brace, rangeBody_number _ stop upper bounds]
  refused refused := by
    obtain ⟨fault, broken⟩ := rangeBody_refused ('\x7b' :: (Printer.number min ++ more)) stop upper refused
    exact ⟨fault, by rw [read_brace, broken]⟩

theorem upperBound_number (min max : Nat) (rest : List Char) :
    upperBound min (',' :: (Printer.number max ++ '\x7d' :: rest)) =
      if numberLimit ≤ max then (none, Printer.number max ++ '\x7d' :: rest) else (some max, '\x7d' :: rest) := by
  have stop : ∀ c ∈ ('\x7d' :: rest).head?, c.isDigit = false := by simp
  rw [upperBound, List.dropWhile_cons, if_neg (by decide)]
  simp only [dropWhile_number, number?_toDigits max stop]
  split_ifs <;> rfl

theorem rangeBody_overflow (start : List Char) (min : Nat) {max : Nat} (large : numberLimit ≤ max)
    (rest : List Char) :
    ∃ fault, rangeBody start (Printer.number min ++ ',' :: (Printer.number max ++ '\x7d' :: rest)) =
      .error fault := by
  obtain ⟨c, digits, written⟩ := List.exists_cons_of_ne_nil (Nat.toDigits_ne_nil (n := max) (b := 10))
  have digit : c.isDigit = true :=
    Nat.isDigit_of_mem_toDigits (by decide) (by decide) (written ▸ List.mem_cons_self)
  have other : c ≠ '\x7d' := by rintro rfl; revert digit; decide
  rw [rangeBody]
  dsimp only
  rw [dropWhile_number, number?_toDigits min (by simp)]
  split_ifs
  · exact ⟨_, rfl⟩
  · dsimp only
    rw [upperBound_number, if_pos large]
    dsimp only
    rw [dropWhile_number, Printer.number, written, List.cons_append]
    split
    next same => exact absurd (List.cons.inj same).1 other
    next => exact ⟨_, rfl⟩

theorem quantifierAt_bounds (min max : Nat) (rest : List Char) :
    QuantifierAt min (some max) rest '\x7b'
      (Printer.number min ++ ',' :: (Printer.number max ++ '\x7d' :: rest)) := by
  by_cases large : numberLimit ≤ max
  · refine ⟨by decide, by decide, fun bounds => ?_, fun _ => ?_⟩
    · have small := Nat.lt_of_le_of_lt (bounds.2 max rfl).2 (by decide : maxRepetition < numberLimit)
      exact absurd small (Nat.not_lt.mpr large)
    · obtain ⟨fault, broken⟩ := rangeBody_overflow _ min large rest
      exact ⟨fault, by rw [read_brace, broken]⟩
  · exact quantifierAt_range _ (by simp) (by rw [upperBound_number, if_neg large])

theorem exists_quantifierAt {min : Nat} {max : Option Nat} {sign : List Char}
    (spelled : Spelling.SpellsQuantifier min max sign) (rest : List Char) :
    ∃ c text, sign ++ rest = c :: text ∧ QuantifierAt min max rest c text := by
  have short {c : Char} {min : Nat} {max : Option Nat} (begins : Begins c) (part : isNamePart c = false)
      (bounds : Quantifiable min max) (read : read c rest = (.quantifier min max, rest)) :
      ∃ c' text, c :: rest = c' :: text ∧ QuantifierAt min max rest c' text :=
    ⟨c, rest, rfl, begins, part, fun _ => read, fun refused => absurd bounds refused⟩
  cases spelled with
  | star => exact short (by decide) (by decide) (by decide) rfl
  | plus => exact short (by decide) (by decide) (by decide) rfl
  | option => exact short (by decide) (by decide) (by decide) rfl
  | exactly n => exact ⟨'\x7b', _, by simp, quantifierAt_range ('\x7d' :: rest) (by simp) rfl⟩
  | atLeast n => exact ⟨'\x7b', _, by simp, quantifierAt_range (',' :: '\x7d' :: rest) (by simp) rfl⟩
  | between n m => exact ⟨'\x7b', _, by simp, quantifierAt_bounds _ _ rest⟩

end Token

namespace Body

def opened (body : Body) : Body :=
  { body with level := .start .unbalancedParenthesis, outer := body.level :: body.outer, bare := false }

def nextAlternative (body : Body) : Body := { body with level := body.level.nextAlternative, bare := false }

def quantified (body : Body) (min : Nat) (max : Option Nat) : Body :=
  { body with level := body.level.quantify min max, bare := false }

end Body

namespace Definition

theorem ofTokensFrom_inner {done : List Definition} {body : Body} {token : Token} {tokens : List Token}
    (other : token.lexeme ≠ .semicolon)
    (next : ∀ name, token.lexeme = .name name → ∀ t ∈ tokens.head?, t.lexeme ≠ .defines) :
    ofTokensFrom done (some body) (token :: tokens) =
      match body.step token with
      | .ok body => ofTokensFrom done (some body) tokens
      | .error fault => .error fault := by
  conv_lhs => unfold ofTokensFrom
  split
  next name _ _ _ rest named => exact absurd rfl (next name named _ rfl)
  next semicolon => exact absurd semicolon other
  next => rfl

/-- Reading on within a definition comes to an end with these definitions. -/
def Reads (definitions done : List Definition) (body : Body) (text : List Char) : Prop :=
  ofTokensFrom done (some body) (Token.scanFrom true text) = .ok definitions

section

variable {definitions done : List Definition} {body : Body}

theorem reads_step {c : Char} {text rest : List Char} (lexeme : Lexeme) (begins : Token.Begins c)
    (read : Token.read c text = (lexeme, rest)) (other : lexeme ≠ .semicolon)
    (next : ∀ name, lexeme = .name name → Token.Ends rest) :
    Reads definitions done body (c :: text) ↔
      ∃ after, body.step ⟨lexeme, c :: text, rest, true⟩ = .ok after ∧ Reads definitions done after rest := by
  rw [Reads, Token.scanFrom_visible begins.toVisible, read,
    ofTokensFrom_inner other fun name named => (next name named).next true]
  cases body.step ⟨lexeme, c :: text, rest, true⟩ with
  | error fault => simp
  | ok after => simp [Reads]

theorem reads_blanks {margin : List Char} (blank : ∀ c ∈ margin, Token.isBlank c = true) (text : List Char) :
    Reads definitions done body (margin ++ text) ↔ Reads definitions done body text := by
  rw [Reads, Token.scanFrom_blanks blank, Reads]

theorem reads_space (text : List Char) :
    Reads definitions done body (' ' :: text) ↔ Reads definitions done body text := by
  rw [Reads, Token.scanFrom_space, Reads]

theorem reads_spelledLiteral {quote : Char} (known : quote = '"' ∨ quote = '\'') {content inside : List Char}
    (spelled : Spelling.SpellsLiteral quote content inside) (rest : List Char) :
    Reads definitions done body (quote :: (inside ++ quote :: rest)) ↔
      Reads definitions done (body.push (.literal (Utf8.encode content))) rest := by
  have begins : Token.Begins quote := by
    rcases known with rfl | rfl <;> decide
  rw [reads_step _ begins (Token.read_spelledLiteral known spelled rest) (by simp) (by simp)]
  simp [Body.step]

theorem reads_literal (content rest : List Char) :
    Reads definitions done body (Printer.literal (Utf8.encode content) ++ rest) ↔
      Reads definitions done (body.push (.literal (Utf8.encode content))) rest := by
  rw [Printer.literal, List.cons_append, List.cons_append, List.append_assoc, List.cons_append, List.nil_append,
    reads_spelledLiteral (.inl rfl) (Escape.spells_bytes content)]

theorem reads_charClass {inside rest : List Char} {negated : Bool} {ranges : List CodeRange}
    (read : Token.read '[' (inside ++ ']' :: rest) = (.charClass negated ranges, rest)) :
    Reads definitions done body ('[' :: inside ++ ']' :: rest) ↔
      Reads definitions done (body.push (.charClass negated ranges)) rest := by
  rw [List.cons_append, reads_step _ (by decide) read (by simp) (by simp)]
  simp [Body.step]

theorem reads_name {name : String} (isName : Token.IsName name) {rest : List Char} (ends : Token.Ends rest) :
    Reads definitions done body (name.toList ++ rest) ↔ Reads definitions done (body.push (.rule name)) rest := by
  obtain ⟨c, part, spelled, start, all⟩ := isName
  have named : String.ofList (c :: part) = name := by rw [← spelled, String.ofList_toList]
  rw [spelled, List.cons_append, reads_step _ (Token.begins_of_isNameStart start)
    (Token.read_name start all ends.part) (by simp) fun _ _ => ends, named]
  simp [Body.step]

theorem reads_opening (rest : List Char) :
    Reads definitions done body ('(' :: rest) ↔ Reads definitions done body.opened rest := by
  rw [reads_step .opening (by decide) rfl (by simp) (by simp)]
  simp [Body.step, Body.opened]

theorem reads_closing {level : Level} {outer : List Level} (surrounded : body.outer = level :: outer)
    (rest : List Char) :
    Reads definitions done body (')' :: rest) ↔ body.level.items ≠ [] ∧
      Reads definitions done ⟨body.name, level.push body.level.close, outer, true⟩ rest := by
  rw [reads_step .closing (by decide) rfl (by simp) (by simp)]
  cases items : body.level.items <;> simp [Body.step, items, surrounded]

theorem reads_bar (rest : List Char) :
    Reads definitions done body ('|' :: rest) ↔
      body.level.items ≠ [] ∧ Reads definitions done body.nextAlternative rest := by
  rw [reads_step .bar (by decide) rfl (by simp) (by simp)]
  cases items : body.level.items <;> simp [Body.step, items, Body.nextAlternative]

theorem reads_quantifier {min : Nat} {max : Option Nat} {sign : List Char}
    (spelled : Spelling.SpellsQuantifier min max sign) (rest : List Char) :
    Reads definitions done body (sign ++ rest) ↔
      (body.bare = true ∧ Quantifiable min max) ∧ Reads definitions done (body.quantified min max) rest := by
  obtain ⟨c, text, written, here⟩ := Token.exists_quantifierAt spelled rest
  rw [written]
  by_cases bounds : Quantifiable min max
  · rw [reads_step _ here.begins (here.read bounds) (by simp) (by simp)]
    cases bare : body.bare <;> simp [Body.step, bare, bounds, Body.quantified]
  · obtain ⟨fault, broken⟩ := here.refused bounds
    rw [reads_step _ here.begins (Prod.ext broken rfl) (by simp) (by simp)]
    simp [Body.step, bounds]

end

end Definition

end GuidedDecoding
