import Mathlib
import GuidedDecoding.Json.Printer
import GuidedDecoding.Proofs.Grammar.Dialect
import GuidedDecoding.Proofs.Json.Syntax

namespace GuidedDecoding

namespace Hex

open JsonSyntax (hexDigit)

theorem isSome_value?_iff {c : Char} : (value? c).isSome = true ↔ [c] ∈ hexDigit := by
  rw [hexDigit, JsonSyntax.singleton_mem_oneOf, value?]
  split_ifs <;> simp_all

theorem read?_eq_some_iff {width n m : Nat} {text rest : List Char} :
    read? width n text = some (m, rest) ↔ ∃ digits, read? width n digits = some (m, []) ∧ digits ++ rest = text := by
  constructor
  · intro read
    fun_induction read? width n text with
    | case1 n text =>
      cases read
      exact ⟨[], rfl, rfl⟩
    | case2 => cases read
    | case3 width n c text d value ih =>
      obtain ⟨digits, inner, same⟩ := ih read
      exact ⟨c :: digits, by rw [read?, value]; exact inner, by rw [List.cons_append, same]⟩
    | case4 => cases read
  · rintro ⟨digits, read, rfl⟩
    fun_induction read? width n digits with
    | case1 n digits =>
      cases read
      rfl
    | case2 => cases read
    | case3 width n c digits d value ih =>
      rw [List.cons_append, read?, value]
      exact ih read
    | case4 => cases read

theorem exists_read?_iff {width n : Nat} {digits : List Char} :
    (∃ m, read? width n digits = some (m, [])) ↔ digits ∈ hexDigit ^ width := by
  induction width generalizing n digits with
  | zero => simp [read?, Language.mem_one]
  | succ width ih =>
    rw [pow_succ']
    constructor
    · rintro ⟨m, read⟩
      cases digits with
      | nil => cases read
      | cons c digits =>
        rw [read?] at read
        split at read
        next d value =>
          have digit : [c] ∈ hexDigit := isSome_value?_iff.mp (by rw [value]; rfl)
          exact Language.append_mem_mul digit (ih.mp ⟨m, read⟩)
        next => cases read
    · rintro ⟨_, ⟨c, holds, rfl⟩, digits, more, rfl⟩
      have digit : (value? c).isSome = true := isSome_value?_iff.mpr (JsonSyntax.singleton_mem_oneOf.mpr holds)
      obtain ⟨d, value⟩ := Option.isSome_iff_exists.mp digit
      obtain ⟨m, read⟩ := ih.mpr more
      refine ⟨m, ?_⟩
      change read? (width + 1) n (c :: digits) = some (m, [])
      rw [read?, value]
      exact read

end Hex

namespace JsonSyntax

/-- The ways to write a part of a string. -/
inductive WritesPart : StringPart → List Char → Prop where
  | plain {c : Char} (least : 0x20 ≤ c.toNat) (unquoted : c ≠ '"') (unescaped : c ≠ '\\') : WritesPart (.char c) [c]
  | short {letter c : Char} (known : JsonToken.shortEscape? letter = some c) : WritesPart (.char c) ['\\', letter]
  | unit {n : Nat} {digits : List Char} (read : Hex.read? 4 0 digits = some (n, [])) :
    WritesPart (.unit n) ('\\' :: 'u' :: digits)

def partTexts (part : StringPart) : Language Char := {text | WritesPart part text}

theorem shortEscape?_eq_some {letter c : Char} (known : JsonToken.shortEscape? letter = some c) :
    letter ∈ ['"', '\\', '/', 'b', 'f', 'n', 'r', 't'] := by
  unfold JsonToken.shortEscape? at known
  split at known <;> simp_all

theorem mem_character_iff {text : List Char} : text ∈ character ↔ ∃ part, text ∈ partTexts part := by
  constructor
  · rintro (⟨c, ⟨least, unquoted, unescaped⟩, rfl⟩ | ⟨_, rfl, _, ⟨letter, listed, rfl⟩ | ⟨_, rfl, digits, hex, rfl⟩, rfl⟩)
    · exact ⟨_, .plain least unquoted unescaped⟩
    · have known : ∃ c, JsonToken.shortEscape? letter = some c := by
        simp only [List.mem_cons, List.not_mem_nil, or_false] at listed
        rcases listed with rfl | rfl | rfl | rfl | rfl | rfl | rfl | rfl <;> exact ⟨_, rfl⟩
      obtain ⟨c, known⟩ := known
      exact ⟨_, .short known⟩
    · obtain ⟨n, read⟩ := Hex.exists_read?_iff.mpr hex
      exact ⟨_, .unit read⟩
  · rintro ⟨part, written⟩
    cases written with
    | plain least unquoted unescaped => exact .inl ⟨_, ⟨least, unquoted, unescaped⟩, rfl⟩
    | short known => exact .inr ⟨['\\'], rfl, _, .inl ⟨_, shortEscape?_eq_some known, rfl⟩, rfl⟩
    | unit read => exact .inr ⟨['\\'], rfl, _, .inr ⟨['u'], rfl, _, Hex.exists_read?_iff.mp ⟨_, read⟩, rfl⟩, rfl⟩

theorem mem_character_pow_iff {n : Nat} {text : List Char} :
    text ∈ character ^ n ↔ ∃ parts : List StringPart, parts.length = n ∧ text ∈ (parts.map partTexts).prod := by
  induction n generalizing text with
  | zero =>
    simp only [pow_zero, List.length_eq_zero_iff, exists_eq_left]
    rfl
  | succ n ih =>
    rw [pow_succ']
    constructor
    · rintro ⟨first, one, rest, others, rfl⟩
      obtain ⟨part, written⟩ := mem_character_iff.mp one
      obtain ⟨parts, rfl, more⟩ := ih.mp others
      exact ⟨part :: parts, rfl, Language.append_mem_mul written more⟩
    · rintro ⟨parts, length, written⟩
      obtain ⟨part, parts, rfl⟩ := List.exists_cons_of_length_eq_add_one length
      obtain ⟨first, one, rest, others, rfl⟩ := written
      exact Language.append_mem_mul (mem_character_iff.mpr ⟨part, one⟩) (ih.mpr ⟨parts, Nat.succ.inj length, others⟩)

theorem WritesPart.read {part : StringPart} {text : List Char} (writes : WritesPart part text) (rest : List Char) :
    JsonToken.stringPart? (text ++ rest) = some (part, rest) ∧ (text ++ rest).head? ≠ some '"' := by
  cases writes with
  | plain least unquoted unescaped => simp [JsonToken.stringPart?, Nat.not_lt.mpr least, unescaped, unquoted]
  | @short letter c known =>
    have other : letter ≠ 'u' := by
      rintro rfl
      cases known
    simp [JsonToken.stringPart?, known]
  | @unit n digits hex =>
    have read : Hex.read? 4 0 (digits ++ rest) = some (n, rest) := Hex.read?_eq_some_iff.mpr ⟨digits, hex, rfl⟩
    simp [JsonToken.stringPart?, read]

theorem exists_writesPart {part : StringPart} {text rest : List Char}
    (read : JsonToken.stringPart? text = some (part, rest)) (inside : text.head? ≠ some '"') :
    ∃ first, WritesPart part first ∧ first ++ rest = text := by
  unfold JsonToken.stringPart? at read
  split at read
  next => cases read
  next =>
    obtain ⟨⟨n, behind⟩, digits, same⟩ := Option.map_eq_some_iff.mp read
    cases same
    obtain ⟨digits, hex, rfl⟩ := Hex.read?_eq_some_iff.mp digits
    exact ⟨_, .unit hex, rfl⟩
  next =>
    obtain ⟨c, known, same⟩ := Option.map_eq_some_iff.mp read
    cases same
    exact ⟨_, .short known, rfl⟩
  next c behind _ _ =>
    split_ifs at read with refused
    cases read
    rw [not_or] at refused
    exact ⟨[c], .plain (Nat.not_lt.mp refused.1) (by simpa using inside) refused.2, rfl⟩

theorem stringBody?_eq_some_iff {parts : List StringPart} {text rest : List Char} :
    JsonToken.stringBody? text = some (parts, rest) ↔
      ∃ inside ∈ (parts.map partTexts).prod, inside ++ '"' :: rest = text := by
  constructor
  · intro read
    fun_induction JsonToken.stringBody? text generalizing parts with
    | case1 =>
      cases read
      exact ⟨[], rfl, rfl⟩
    | case2 => cases read
    | case3 text open? part behind first _ ih =>
      obtain ⟨⟨parts, after⟩, others, same⟩ := Option.map_eq_some_iff.mp read
      cases same
      obtain ⟨inside, more, rfl⟩ := ih others
      have begins : text.head? ≠ some '"' := by
        intro mark
        obtain ⟨tail, rfl⟩ := List.head?_eq_some_iff.mp mark
        exact open? tail rfl
      obtain ⟨one, writes, rfl⟩ := exists_writesPart first begins
      exact ⟨one ++ inside, Language.append_mem_mul writes more, List.append_assoc _ _ _⟩
  · rintro ⟨inside, written, rfl⟩
    induction parts generalizing inside with
    | nil =>
      cases written
      rw [List.nil_append, JsonToken.stringBody?]
    | cons part parts ih =>
      obtain ⟨one, writes, more, others, rfl⟩ := written
      obtain ⟨read, begins⟩ := WritesPart.read writes (more ++ '"' :: rest)
      rw [List.append_assoc, JsonToken.stringBody?]
      · split
        next missing =>
          rw [read] at missing
          cases missing
        next found =>
          rw [read] at found
          cases found
          rw [ih more others, Option.map_some]
      · intro _ same
        exact begins (by rw [same, List.head?_cons])

theorem next?_eq_string_iff {parts : List StringPart} {text rest : List Char} :
    JsonToken.next? text = some (.string parts, rest) ↔
      ∃ inside ∈ (parts.map partTexts).prod, '"' :: (inside ++ '"' :: rest) = text := by
  constructor
  · intro read
    unfold JsonToken.next? at read
    split at read
    case h_7 =>
      obtain ⟨⟨parts, after⟩, body, same⟩ := Option.map_eq_some_iff.mp read
      cases same
      obtain ⟨inside, written, rfl⟩ := stringBody?_eq_some_iff.mp body
      exact ⟨inside, written, rfl⟩
    case h_11 =>
      obtain ⟨_, _, same⟩ := Option.map_eq_some_iff.mp read
      cases same
    all_goals cases read
  · rintro ⟨inside, written, rfl⟩
    rw [JsonToken.next?, stringBody?_eq_some_iff.mpr ⟨inside, written, rfl⟩, Option.map_some]

end JsonSyntax

def StringPart.isHalf : StringPart → Bool
  | .char _ => false
  | .unit n => 0xD800 ≤ n && n < 0xE000

namespace Json

/-- Two halves are one character, every other part is one of its own. -/
theorem length_decodeString? {parts : List StringPart} {text : List Char} (decoded : decodeString? parts = some text) :
    2 * text.length + parts.countP StringPart.isHalf = 2 * parts.length := by
  fun_induction decodeString? parts generalizing text with
  | case1 =>
    cases decoded
    rfl
  | case2 c parts ih =>
    obtain ⟨text, inner, rfl⟩ := Option.map_eq_some_iff.mp decoded
    have length := ih inner
    rw [List.countP_cons_of_neg (by simp [StringPart.isHalf]), List.length_cons, List.length_cons]
    omega
  | case3 n parts valid ih =>
    obtain ⟨text, inner, rfl⟩ := Option.map_eq_some_iff.mp decoded
    have length := ih inner
    have whole : StringPart.isHalf (.unit n) = false := by
      rcases valid with low | ⟨high, _⟩ <;> simp [StringPart.isHalf] <;> omega
    rw [List.countP_cons_of_neg (by simp [whole]), List.length_cons, List.length_cons]
    omega
  | case4 n _ m parts pair ih =>
    obtain ⟨text, inner, rfl⟩ := Option.map_eq_some_iff.mp decoded
    have length := ih inner
    have halves : StringPart.isHalf (.unit n) = true ∧ StringPart.isHalf (.unit m) = true := by
      simp [StringPart.isHalf]
      omega
    rw [List.countP_cons_of_pos halves.1, List.countP_cons_of_pos halves.2, List.length_cons, List.length_cons,
      List.length_cons]
    omega
  | case5 => cases decoded
  | case6 => cases decoded

theorem exists_decodeString? {parts : List StringPart} (whole : ∀ part ∈ parts, part.isHalf = false)
    (small : ∀ n, .unit n ∈ parts → n < 16 ^ 4) : ∃ text, decodeString? parts = some text := by
  induction parts with
  | nil => exact ⟨[], rfl⟩
  | cons part parts ih =>
    obtain ⟨text, rest⟩ := ih (fun other member => whole other (by simp [member])) fun n member => small n (by simp [member])
    cases part with
    | char c => exact ⟨c :: text, by rw [decodeString?, rest, Option.map_some]⟩
    | unit n =>
      have apart := whole (.unit n) (by simp)
      have bound := small n (by simp)
      have valid : n.isValidChar := by
        simp [StringPart.isHalf] at apart
        unfold Nat.isValidChar
        omega
      exact ⟨Char.ofNat n :: text, by rw [decodeString?.eq_def]; simp [valid, rest]⟩

end Json

namespace JsonSyntax

theorem unit_lt {parts : List StringPart} {text : List Char} (written : text ∈ (parts.map partTexts).prod) :
    ∀ n, .unit n ∈ parts → n < 16 ^ 4 := by
  intro n member
  induction parts generalizing text with
  | nil => cases member
  | cons part parts ih =>
    obtain ⟨one, writes, more, others, rfl⟩ := written
    rcases List.mem_cons.mp member with rfl | member
    · cases writes with
      | unit hex => simpa using Hex.read?_lt hex
    · exact ih others member

/-- A text that is a single string is read as the string that its parts stand for, if they stand for one. -/
theorem read?_of_string {parts : List StringPart} {text : List Char}
    (string : JsonToken.next? text = some (.string parts, [])) :
    Json.read? (String.ofList text) = (Json.decodeString? parts).map fun text => .string (String.ofList text) := by
  obtain ⟨inside, written, rfl⟩ := next?_eq_string_iff.mp string
  have tokens : JsonToken.scan? ('"' :: (inside ++ ['"'])) = some [.string parts] := by
    rw [JsonToken.scan?, if_neg (by decide)]
    split
    next missing =>
      rw [string] at missing
      cases missing
    next found =>
      rw [string] at found
      cases found
      rw [JsonToken.scan?, Option.map_some]
  have tree : JsonTree.read? ('"' :: (inside ++ ['"'])) = some (.string parts) := by
    rw [JsonTree.read?, tokens]
    rfl
  rw [Json.read?, String.toList_ofList, tree, Option.bind_some, Json.ofTree?]

end JsonSyntax

namespace Json

open JsonSyntax (WritesPart partTexts)

theorem exists_escapedPart (c : Char) : ∃ part, WritesPart part (escapeChar c) ∧
    ∀ parts, decodeString? (part :: parts) = (decodeString? parts).map (c :: ·) := by
  have short {letter : Char} (escape : escapeChar c = ['\\', letter]) (known : JsonToken.shortEscape? letter = some c) :
      ∃ part, WritesPart part (escapeChar c) ∧
        ∀ parts, decodeString? (part :: parts) = (decodeString? parts).map (c :: ·) :=
    ⟨.char c, escape ▸ .short known, fun parts => by rw [decodeString?]⟩
  by_cases mark : c = '"'
  · subst mark
    exact short rfl rfl
  by_cases backslash : c = '\\'
  · subst backslash
    exact short rfl rfl
  by_cases control : c.toNat < 0x20
  · by_cases letter : c ∈ ['\x08', '\x0c', '\n', '\r', '\t']
    · simp only [List.mem_cons, List.not_mem_nil, or_false] at letter
      rcases letter with rfl | rfl | rfl | rfl | rfl <;> exact short rfl rfl
    · simp only [List.mem_cons, List.not_mem_nil, or_false, not_or] at letter
      have escape : escapeChar c = '\\' :: 'u' :: Hex.digits 4 c.toNat := by simp [escapeChar, mark, backslash, letter, control]
      have digits := Hex.read?_digits (by omega : c.toNat < 16 ^ 4) 0 0 []
      rw [List.append_nil, Nat.mul_zero, Nat.zero_add, Hex.read?] at digits
      refine ⟨.unit c.toNat, escape ▸ .unit digits, fun parts => ?_⟩
      rw [decodeString?.eq_def]
      dsimp only
      rw [if_pos (show c.toNat.isValidChar from c.valid), Char.ofNat_toNat]
  · have letter : c ≠ '\x08' ∧ c ≠ '\x0c' ∧ c ≠ '\n' ∧ c ≠ '\r' ∧ c ≠ '\t' := by
      refine ⟨?_, ?_, ?_, ?_, ?_⟩ <;> rintro rfl <;> exact control (by decide)
    have escape : escapeChar c = [c] := by simp [escapeChar, mark, backslash, letter, control]
    exact ⟨.char c, escape ▸ .plain (Nat.not_lt.mp control) mark backslash, fun parts => by rw [decodeString?]⟩

theorem exists_next?_quote (text : String) : ∃ parts, JsonToken.next? (quote text) = some (.string parts, []) ∧
    decodeString? parts = some text.toList ∧ parts.length = text.length := by
  have escaped (text : List Char) : ∃ parts, text.flatMap escapeChar ∈ (parts.map partTexts).prod ∧
      decodeString? parts = some text ∧ parts.length = text.length := by
    induction text with
    | nil => exact ⟨[], rfl, rfl, rfl⟩
    | cons c text ih =>
      obtain ⟨parts, written, decoded, length⟩ := ih
      obtain ⟨part, writes, back⟩ := exists_escapedPart c
      exact ⟨part :: parts, Language.append_mem_mul writes written, by rw [back, decoded, Option.map_some],
        congrArg Nat.succ length⟩
  obtain ⟨parts, written, decoded, length⟩ := escaped text.toList
  exact ⟨parts, JsonSyntax.next?_eq_string_iff.mpr ⟨_, written, rfl⟩, decoded, length.trans String.length_toList⟩

end Json

end GuidedDecoding
