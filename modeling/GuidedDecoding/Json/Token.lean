import GuidedDecoding.Text.Hex

namespace GuidedDecoding

/-- A part of a string: a character, or the code unit of an escape sequence `\uXXXX`. -/
inductive StringPart where
  | char (c : Char)
  | unit (n : Nat)
  deriving Repr, DecidableEq

structure NumberText where
  negative : Bool
  whole : List Char
  fraction : List Char
  exponent : Option (Bool × List Char)
  deriving Repr, DecidableEq

inductive JsonToken where
  | null
  | bool (b : Bool)
  | number (text : NumberText)
  | string (parts : List StringPart)
  | openArray
  | closeArray
  | openObject
  | closeObject
  | comma
  | colon
  deriving Repr, DecidableEq

namespace JsonToken

def isBlank (c : Char) : Bool := c == ' ' || c == '\n' || c == '\t' || c == '\r'

def shortEscape? (c : Char) : Option Char :=
  match c with
  | '"' => some '"'
  | '\\' => some '\\'
  | '/' => some '/'
  | 'b' => some '\x08'
  | 'f' => some '\x0c'
  | 'n' => some '\n'
  | 'r' => some '\r'
  | 't' => some '\t'
  | _ => none

def stringPart? : List Char → Option (StringPart × List Char)
  | [] => none
  | '\\' :: 'u' :: rest => (Hex.read? 4 0 rest).map fun (n, rest) => (.unit n, rest)
  | '\\' :: c :: rest => (shortEscape? c).map fun c => (.char c, rest)
  | c :: rest => if c.toNat < 0x20 ∨ c = '\\' then none else some (.char c, rest)

theorem stringPart?_length {text rest : List Char} {part : StringPart}
    (h : stringPart? text = some (part, rest)) : rest.length < text.length := by
  unfold stringPart? at h
  split at h
  · cases h
  · simp only [Option.map_eq_some_iff, Prod.mk.injEq, Prod.exists] at h
    obtain ⟨_, _, read, _, rfl⟩ := h
    have := Hex.read?_length read
    simp only [List.length_cons]
    omega
  · simp only [Option.map_eq_some_iff, Prod.mk.injEq] at h
    obtain ⟨_, _, _, rfl⟩ := h
    simp only [List.length_cons]
    omega
  · split at h
    · cases h
    · cases h
      simp

def stringBody? (text : List Char) : Option (List StringPart × List Char) :=
  match text with
  | '"' :: rest => some ([], rest)
  | text =>
    match h : stringPart? text with
    | none => none
    | some (part, rest) =>
      have := stringPart?_length h
      (stringBody? rest).map fun (parts, rest) => (part :: parts, rest)
termination_by text.length

theorem stringBody?_length {text rest : List Char} {parts : List StringPart}
    (h : stringBody? text = some (parts, rest)) : rest.length < text.length := by
  fun_induction stringBody? text generalizing parts rest with
  | case1 tail => cases h; simp
  | case2 => cases h
  | case3 text _ part after read shorter ih =>
    simp only [Option.map_eq_some_iff, Prod.mk.injEq, Prod.exists] at h
    obtain ⟨_, _, inner, _, rfl⟩ := h
    exact Nat.lt_trans (ih inner) shorter

def digits? (text : List Char) : Option (List Char × List Char) :=
  match text.takeWhile Char.isDigit with
  | [] => none
  | digits => some (digits, text.dropWhile Char.isDigit)

def whole? (text : List Char) : Option (List Char × List Char) :=
  match digits? text with
  | some ('0' :: _ :: _, _) => none
  | result => result

def fraction? (text : List Char) : Option (List Char × List Char) :=
  match text with
  | '.' :: rest => digits? rest
  | _ => some ([], text)

def exponent? (text : List Char) : Option (Option (Bool × List Char) × List Char) :=
  match text with
  | c :: rest =>
    if c = 'e' ∨ c = 'E' then
      let (negative, rest) :=
        match rest with
        | '-' :: rest => (true, rest)
        | '+' :: rest => (false, rest)
        | _ => (false, rest)
      (digits? rest).map fun (digits, rest) => (some (negative, digits), rest)
    else some (none, text)
  | [] => some (none, text)

def number? (text : List Char) : Option (NumberText × List Char) := do
  let (negative, rest) :=
    match text with
    | '-' :: rest => (true, rest)
    | _ => (false, text)
  let (whole, rest) ← whole? rest
  let (fraction, rest) ← fraction? rest
  let (exponent, rest) ← exponent? rest
  return (⟨negative, whole, fraction, exponent⟩, rest)

def next? (text : List Char) : Option (JsonToken × List Char) :=
  match text with
  | '[' :: rest => some (.openArray, rest)
  | ']' :: rest => some (.closeArray, rest)
  | '\x7b' :: rest => some (.openObject, rest)
  | '\x7d' :: rest => some (.closeObject, rest)
  | ',' :: rest => some (.comma, rest)
  | ':' :: rest => some (.colon, rest)
  | '"' :: rest => (stringBody? rest).map fun (parts, rest) => (.string parts, rest)
  | 'n' :: 'u' :: 'l' :: 'l' :: rest => some (.null, rest)
  | 't' :: 'r' :: 'u' :: 'e' :: rest => some (.bool true, rest)
  | 'f' :: 'a' :: 'l' :: 's' :: 'e' :: rest => some (.bool false, rest)
  | text => (number? text).map fun (n, rest) => (.number n, rest)

theorem digits?_length {text digits rest : List Char} (h : digits? text = some (digits, rest)) :
    rest.length < text.length := by
  unfold digits? at h
  split at h
  · cases h
  · rename_i nonempty
    cases h
    have parts :=
      congrArg List.length (List.takeWhile_append_dropWhile (p := Char.isDigit) (l := text))
    have := List.length_pos_iff.mpr nonempty
    simp only [List.length_append] at parts
    omega

theorem whole?_length {text digits rest : List Char} (h : whole? text = some (digits, rest)) :
    rest.length < text.length := by
  unfold whole? at h
  split at h
  · cases h
  · exact digits?_length h

theorem fraction?_length {text digits rest : List Char}
    (h : fraction? text = some (digits, rest)) : rest.length ≤ text.length := by
  unfold fraction? at h
  split at h
  · have := digits?_length h
    simp only [List.length_cons]
    omega
  · cases h
    exact Nat.le_refl _

theorem exponent?_length {text rest : List Char} {exponent : Option (Bool × List Char)}
    (h : exponent? text = some (exponent, rest)) : rest.length ≤ text.length := by
  unfold exponent? at h
  split at h
  · split at h
    · simp only [Option.map_eq_some_iff, Prod.mk.injEq, Prod.exists] at h
      obtain ⟨_, _, read, _, rfl⟩ := h
      have shorter := digits?_length read
      split at shorter <;> simp only [List.length_cons] at shorter ⊢ <;> omega
    · cases h
      exact Nat.le_refl _
  · cases h
    exact Nat.le_refl _

theorem number?_length {text rest : List Char} {n : NumberText}
    (h : number? text = some (n, rest)) : rest.length < text.length := by
  simp only [number?, Option.bind_eq_bind, Option.bind_eq_some_iff, Option.pure_def,
    Option.some.injEq, Prod.mk.injEq, Prod.exists] at h
  obtain ⟨_, _, first, _, _, second, _, _, third, _, rfl⟩ := h
  have first := whole?_length first
  have second := fraction?_length second
  have third := exponent?_length third
  split at first <;> simp only [List.length_cons] at first ⊢ <;> omega

theorem next?_length {text rest : List Char} {token : JsonToken}
    (h : next? text = some (token, rest)) : rest.length < text.length := by
  unfold next? at h
  split at h
  case h_7 =>
    simp only [Option.map_eq_some_iff, Prod.mk.injEq, Prod.exists] at h
    obtain ⟨_, _, read, _, rfl⟩ := h
    exact Nat.lt_succ_of_lt (stringBody?_length read)
  case h_11 =>
    simp only [Option.map_eq_some_iff, Prod.mk.injEq, Prod.exists] at h
    obtain ⟨_, _, read, _, rfl⟩ := h
    exact number?_length read
  all_goals
    cases h
    simp only [List.length_cons]
    omega

def scan? (text : List Char) : Option (List JsonToken) :=
  match text with
  | [] => some []
  | c :: rest =>
    if isBlank c then scan? rest
    else
      match h : next? (c :: rest) with
      | none => none
      | some (token, after) =>
        have : after.length < rest.length + 1 := next?_length h
        (scan? after).map (token :: ·)
termination_by text.length

end JsonToken
end GuidedDecoding
