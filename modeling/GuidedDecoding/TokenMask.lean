namespace GuidedDecoding

abbrev Word := BitVec 32

/-- Bit `i % 32` of word `i / 32` is set when token `i` is allowed; the bits at and beyond the size are never set. -/
structure TokenMask where
  size : Nat
  words : Vector Word ((size + 31) / 32)
  deriving Repr, DecidableEq

namespace TokenMask

/-- Sizes are words of 64 bits. -/
def sizeLimit : Nat := 0x10000000000000000

/-- Ids of tokens are words of 32 bits. -/
def idLimit : Nat := 0x100000000

def wordCount (size : Nat) : Nat := (size + 31) / 32

/-- The number of words for a size, if the sum that rounds it up does not overflow. -/
def wordCount? (size : Nat) : Option Nat := if size + 31 < sizeLimit then some (wordCount size) else Option.none

def bit (words : List Word) (i : Nat) : Bool :=
  match words[i / 32]? with
  | some word => word.getLsbD (i % 32)
  | none => false

def none (size : Nat) : TokenMask := ⟨size, .replicate _ 0⟩

theorem word_lt {size i : Nat} (h : i < size) : i / 32 < (size + 31) / 32 := by omega

def all (size : Nat) : TokenMask :=
  let filled := .replicate ((size + 31) / 32) (BitVec.allOnes 32)
  if h : 0 < size % 32 then
    have : size / 32 < (size + 31) / 32 := by omega
    ⟨size, filled.set (size / 32) ((1#32 <<< (size % 32)) - 1)⟩
  else ⟨size, filled⟩

def rejecting? (size : Nat) : Option TokenMask := (wordCount? size).map fun _ => none size

def allowing? (size : Nat) : Option TokenMask := (wordCount? size).map fun _ => all size

/-- Changes the word that holds bit `i`; an id at or beyond the size changes nothing. -/
def update (mask : TokenMask) (i : Nat) (f : Word → Word) : TokenMask :=
  if h : i < mask.size then
    have := word_lt h
    { mask with words := mask.words.set (i / 32) (f mask.words[i / 32]) }
  else mask

def allow (mask : TokenMask) (i : Nat) : TokenMask := mask.update i (· ||| (1#32 <<< (i % 32)))

def reject (mask : TokenMask) (i : Nat) : TokenMask := mask.update i (· &&& ~~~(1#32 <<< (i % 32)))

def isAllowed (mask : TokenMask) (i : Nat) : Bool :=
  if h : i < mask.size then
    have := word_lt h
    mask.words[i / 32].getLsbD (i % 32)
  else false

/-- The allowed ids. The size is cut to an id first. -/
def toList (mask : TokenMask) : List Nat := (List.range (mask.size % idLimit)).filter mask.isAllowed

def zeroBits (words : List Word) (size : Nat) : List Nat :=
  (List.range (min size (words.length * 32))).filter fun i => !bit words i

/-- The unset bits below `size` as ids. -/
def rejectedIn (words : List Word) (size : Nat) : List Nat := (zeroBits words size).map (· % idLimit)

def rejected (mask : TokenMask) : List Nat := rejectedIn mask.words.toList mask.size

def popCount (word : Word) : Nat := (List.range 32).countP word.getLsbD

def count (mask : TokenMask) : Nat := mask.words.toList.foldl (fun n word => n + popCount word) 0

def wordBytes (word : Word) : List UInt8 :=
  (List.range 4).map fun k => UInt8.ofNat (word.toNat >>> (8 * k))

def toBytes (mask : TokenMask) : List UInt8 := mask.words.toList.flatMap wordBytes

inductive LogitsError where
  | lengthMismatch
  deriving Repr, DecidableEq

def LogitsError.message : LogitsError → String
  | .lengthMismatch => "The input logits array is not equal to the bitmask size."

def negativeInfinity : Word := 0xFF800000#32

/-- Sets the logits of the rejected tokens, which are bit patterns, to negative infinity. -/
def applyTo (mask : TokenMask) (logits : List Word) : Except LogitsError (List Word) :=
  if logits.length = mask.size then
    .ok (logits.mapIdx fun i logit =>
      if (mask.words[i / 32]?).any (·.getLsbD (i % 32)) then logit else negativeInfinity)
  else .error .lengthMismatch

end TokenMask
end GuidedDecoding
