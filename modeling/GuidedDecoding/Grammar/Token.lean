import GuidedDecoding.Text.CodeRange
import GuidedDecoding.Text.Hex
import GuidedDecoding.Text.Utf8
import GuidedDecoding.Grammar.Fault

namespace GuidedDecoding

/-- Scanning is total: a piece of text that is no token becomes one that says what is wrong with it. -/
inductive Lexeme where
  | name (text : String)
  | defines
  | bar
  | opening
  | closing
  | semicolon
  | literal (bytes : List UInt8)
  | charClass (negated : Bool) (ranges : List CodeRange)
  | quantifier (min : Nat) (max : Option Nat)
  | brokenAtom (fault : SyntaxFault)
  | brokenQuantifier (fault : SyntaxFault)
  | stray
  deriving Repr

structure Token where
  lexeme : Lexeme
  start : List Char
  after : List Char
  attached : Bool
  deriving Repr

namespace Token

def isNameStart (c : Char) : Bool := c.isAlpha || c == '_'

def isNamePart (c : Char) : Bool := c.isAlphanum || c == '_' || c == '-' || c == '.'

def isBlank (c : Char) : Bool := c == ' ' || c == '\t'

def isLineEnd (c : Char) : Bool := c == '\n' || c == '\r'

/-- The text after a comment whose first sign has been read. A carriage return without a line feed
ends no line, and the text is then no comment. -/
def comment? (text : List Char) : Option (List Char) :=
  match text.dropWhile (!isLineEnd ·) with
  | '\r' :: '\n' :: rest => some ('\r' :: '\n' :: rest)
  | '\r' :: _ => none
  | rest => some rest

def simpleEscape? (c : Char) : Option Char :=
  if c = 'n' then some '\n'
  else if c = 'r' then some '\r'
  else if c = 't' then some '\t'
  else if c = '0' then some '\x00'
  else if c ∈ ['\\', '"', '\'', '[', ']', '-', '^', '/'] then some c
  else none

def escapeWidth? (c : Char) : Option Nat :=
  if c = 'x' then some 2 else if c = 'u' then some 4 else if c = 'U' then some 8 else none

def escape (text : List Char) : Except SyntaxFault (Nat × List Char) :=
  match text with
  | [] => .error ⟨.unterminatedEscape, text⟩
  | c :: rest =>
    match simpleEscape? c, escapeWidth? c with
    | some d, _ => .ok (d.toNat, rest)
    | none, some width =>
      match Hex.read? width 0 rest with
      | some (n, after) => .ok (n, after)
      | none => .error ⟨.malformedHexEscape, rest⟩
    | none, none => .error ⟨.invalidEscape, text⟩

theorem escape_length {text rest : List Char} {n : Nat} (h : escape text = .ok (n, rest)) :
    rest.length < text.length := by
  unfold escape at h
  split at h
  · cases h
  · split at h
    · cases h; simp
    · split at h
      · rename_i read
        cases h
        exact Nat.lt_succ_of_le (Hex.read?_length read)
      · cases h
    · cases h

def literalBody (quote : Char) (start text : List Char) :
    Except SyntaxFault (List Char × List Char) :=
  match text with
  | [] => .error ⟨.unterminatedLiteral, start⟩
  | c :: rest =>
    if c = '\n' then .error ⟨.unterminatedLiteral, start⟩
    else if c = quote then .ok ([], rest)
    else if c = '\\' then
      match h : escape rest with
      | .error fault => .error fault
      | .ok (n, after) =>
        have := escape_length h
        if n.isValidChar then
          match literalBody quote start after with
          | .error fault => .error fault
          | .ok (body, after) => .ok (Char.ofNat n :: body, after)
        else .error ⟨.notScalarValue, text⟩
    else
      match literalBody quote start rest with
      | .error fault => .error fault
      | .ok (body, after) => .ok (c :: body, after)
termination_by text.length

theorem literalBody_length {quote : Char} {start text body rest : List Char}
    (h : literalBody quote start text = .ok (body, rest)) : rest.length < text.length := by
  fun_induction literalBody quote start text generalizing body rest <;> grind

def classBound (text : List Char) : Except SyntaxFault (Nat × List Char) :=
  match text with
  | [] => .error ⟨.unterminatedClass, text⟩
  | c :: rest =>
    if c = '\n' then .error ⟨.unterminatedClass, text⟩
    else if c = '\\' then escape rest
    else .ok (c.toNat, rest)

theorem classBound_length {text rest : List Char} {n : Nat}
    (h : classBound text = .ok (n, rest)) : rest.length < text.length := by
  cases text with
  | nil => cases h
  | cons c tail =>
    simp only [classBound] at h
    split at h
    · cases h
    · split at h
      · exact Nat.lt_succ_of_lt (escape_length h)
      · cases h; simp

def classRange (text : List Char) : Except SyntaxFault (CodeRange × List Char) :=
  match classBound text with
  | .error fault => .error fault
  | .ok (lo, rest) =>
    match rest with
    | '-' :: after =>
      if after.head? = some ']' then .ok (⟨lo, lo⟩, rest)
      else
        match classBound after with
        | .error fault => .error fault
        | .ok (hi, after) => if hi < lo then .error ⟨.classOrder, rest⟩ else .ok (⟨lo, hi⟩, after)
    | _ => .ok (⟨lo, lo⟩, rest)

theorem classRange_length {text rest : List Char} {range : CodeRange}
    (h : classRange text = .ok (range, rest)) : rest.length < text.length := by
  unfold classRange at h
  split at h
  · cases h
  · rename_i lo rest₁ first
    have bound := classBound_length first
    split at h
    · rename_i after
      split at h
      · cases h; exact bound
      · split at h
        · cases h
        · rename_i hi rest₂ second
          have bound' := classBound_length second
          split at h
          · cases h
          · cases h
            simp only [List.length_cons] at bound
            omega
    · cases h; exact bound

def classRanges (text : List Char) : Except SyntaxFault (List CodeRange × List Char) :=
  match text with
  | ']' :: rest => .ok ([], rest)
  | text =>
    match h : classRange text with
    | .error fault => .error fault
    | .ok (range, rest) =>
      have := classRange_length h
      match classRanges rest with
      | .error fault => .error fault
      | .ok (ranges, rest) => .ok (range :: ranges, rest)
termination_by text.length

theorem classRanges_length {text rest : List Char} {ranges : List CodeRange}
    (h : classRanges text = .ok (ranges, rest)) : rest.length < text.length := by
  fun_induction classRanges text generalizing ranges rest <;> grind

def classBody (negated : Bool) (start text : List Char) : Lexeme × List Char :=
  match classRanges text with
  | .error fault => (.brokenAtom fault, [])
  | .ok ([], _) => (.brokenAtom ⟨.emptyClass, start⟩, [])
  | .ok (ranges, rest) => (.charClass negated ranges, rest)

def numberLimit : Nat := 0x100000000

def number? (text : List Char) : Option (Nat × List Char) :=
  let digits := text.takeWhile Char.isDigit
  let n := digits.foldl (fun n d => 10 * n + (d.toNat - '0'.toNat)) 0
  if digits = [] ∨ numberLimit ≤ n then none else some (n, text.drop digits.length)

def upperBound (min : Nat) (text : List Char) : Option Nat × List Char :=
  match text.dropWhile isBlank with
  | ',' :: rest =>
    let rest := rest.dropWhile isBlank
    match number? rest with
    | some (max, rest) => (some max, rest)
    | none => (none, rest)
  | _ => (some min, text)

def rangeBody (start text : List Char) : Except SyntaxFault (Nat × Option Nat × List Char) :=
  let text := text.dropWhile isBlank
  match number? text with
  | none => .error ⟨.malformedRange, text⟩
  | some (min, rest) =>
    let (max, rest) := upperBound min rest
    match rest.dropWhile isBlank with
    | '}' :: rest =>
      if max.any (· < min) then .error ⟨.rangeOrder, start⟩
      else if maxRepetition < min ∨ max.any (maxRepetition < ·) then .error ⟨.rangeTooLarge, start⟩
      else .ok (min, max, rest)
    | rest => .error ⟨.malformedRange, rest⟩

def sign? (c : Char) : Option Lexeme :=
  match c with
  | '(' => some .opening
  | ')' => some .closing
  | '|' => some .bar
  | ';' => some .semicolon
  | '*' => some (.quantifier 0 none)
  | '+' => some (.quantifier 1 none)
  | '?' => some (.quantifier 0 (some 1))
  | _ => none

def read (c : Char) (text : List Char) : Lexeme × List Char :=
  if let some sign := sign? c then (sign, text)
  else if c = '"' ∨ c = '\'' then
    match literalBody c (c :: text) text with
    | .error fault => (.brokenAtom fault, [])
    | .ok (body, rest) => (.literal (Utf8.encode body), rest)
  else if c = '[' then
    match text with
    | '^' :: rest => classBody true (c :: text) rest
    | _ => classBody false (c :: text) text
  else if c = '{' then
    match rangeBody (c :: text) text with
    | .error fault => (.brokenQuantifier fault, [])
    | .ok (min, max, rest) => (.quantifier min max, rest)
  else if isNameStart c then
    (.name (String.ofList (c :: text.takeWhile isNamePart)), text.dropWhile isNamePart)
  else
    match c, text with
    | ':', ':' :: '=' :: rest => (.defines, rest)
    | _, _ => (.stray, [])

theorem dropWhile_length_le (p : Char → Bool) (text : List Char) :
    (text.dropWhile p).length ≤ text.length :=
  (List.dropWhile_suffix p).length_le

theorem number?_length {text rest : List Char} {n : Nat} (h : number? text = some (n, rest)) :
    rest.length ≤ text.length := by
  simp only [number?] at h
  split at h
  · cases h
  · cases h; simp

theorem upperBound_length (min : Nat) (text : List Char) :
    (upperBound min text).2.length ≤ text.length := by
  have blank := dropWhile_length_le isBlank text
  unfold upperBound
  split
  · rename_i rest eq
    have inner := dropWhile_length_le isBlank rest
    simp only [eq, List.length_cons] at blank
    simp only
    split
    · rename_i read
      have := number?_length read
      simp only
      omega
    · simp only
      omega
  · simp

theorem rangeBody_length {start text rest : List Char} {min : Nat} {max : Option Nat}
    (h : rangeBody start text = .ok (min, max, rest)) : rest.length ≤ text.length := by
  have blank := dropWhile_length_le isBlank text
  simp only [rangeBody] at h
  split at h
  · cases h
  · rename_i n rest₁ read
    have first := number?_length read
    have second := upperBound_length n rest₁
    have third := dropWhile_length_le isBlank (upperBound n rest₁).2
    split at h
    · rename_i rest₂ eq
      split at h
      · cases h
      · split at h
        · cases h
        · cases h
          simp only [eq, List.length_cons] at third
          omega
    · cases h

theorem classBody_length (negated : Bool) (start text : List Char) :
    (classBody negated start text).2.length ≤ text.length := by
  unfold classBody
  split
  · simp
  · simp
  · rename_i read
    exact Nat.le_of_lt (classRanges_length read)

theorem read_length (c : Char) (text : List Char) : (read c text).2.length ≤ text.length := by
  unfold read
  split
  · exact Nat.le_refl _
  · split
    · split
      · exact Nat.zero_le _
      · rename_i body
        exact Nat.le_of_lt (literalBody_length body)
    · split
      · split
        · exact Nat.le_succ_of_le (classBody_length _ _ _)
        · exact classBody_length _ _ _
      · split
        · split
          · exact Nat.zero_le _
          · rename_i body
            exact rangeBody_length body
        · split
          · exact dropWhile_length_le _ _
          · split
            · exact Nat.le_add_right _ 2
            · exact Nat.zero_le _

theorem comment?_length {text rest : List Char} (h : comment? text = some rest) :
    rest.length ≤ text.length := by
  have shorter := dropWhile_length_le (!isLineEnd ·) text
  unfold comment? at h
  split at h
  · rename_i eq
    cases h
    simpa [eq] using shorter
  · cases h
  · cases h
    exact shorter

/-- The tokens of a text, where `attached` tells whether only spaces and tabs were read since the
token before it. Blanks, line ends and comments separate tokens. -/
def scanFrom (attached : Bool) (text : List Char) : List Token :=
  match text with
  | [] => []
  | c :: rest =>
    if isBlank c then scanFrom attached rest
    else if isLineEnd c then scanFrom false rest
    else if c = '#' then
      match h : comment? rest with
      | some after =>
        have := comment?_length h
        scanFrom false after
      | none => [⟨.stray, text, [], attached⟩]
    else
      match h : read c rest with
      | (lexeme, after) =>
        have : after.length ≤ rest.length := by simpa [h] using read_length c rest
        ⟨lexeme, text, after, attached⟩ :: scanFrom true after
termination_by text.length

def scan (text : List Char) : List Token := scanFrom true text

end Token
end GuidedDecoding
