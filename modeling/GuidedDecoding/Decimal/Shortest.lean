import GuidedDecoding.Decimal.Binary64

namespace GuidedDecoding

structure Decimal where
  digits : Nat
  exponent : Int
  deriving Repr, DecidableEq

namespace Decimal

def length (n : Nat) : Nat := (Nat.toDigits 10 n).length

def leadingExponent (num den : Nat) : Int :=
  if den ≤ num then (length (num / den) : Int) - 1
  else -(length ((den - 1) / num) : Int)

def unscale (num den : Nat) : Int → Nat × Nat
  | .ofNat e => (num, den * Nat.pow 10 e)
  | .negSucc e => (num * Nat.pow 10 (e + 1), den)

def trim : Nat → Decimal → Decimal
  | 0, d => d
  | fuel + 1, d => if d.digits % 10 = 0 then trim fuel ⟨d.digits / 10, d.exponent + 1⟩ else d

/-- The fractions that round to a number, each multiplied by four times its unit: from `lo` to `hi`
around `mid`, the ends included if `closed`. The gap below a power of two is half as wide. -/
structure Rounding where
  lo : Nat
  mid : Nat
  hi : Nat
  closed : Bool

def Rounding.of (x : Binary64) : Rounding :=
  let gap := if x.mantissa = Binary64.leadingBit ∧ -1074 < x.exponent then 1 else 2
  ⟨4 * x.mantissa - gap, 4 * x.mantissa, 4 * x.mantissa + 2, x.mantissa % 2 = 0⟩

def Rounding.holds (r : Rounding) (unit : Nat × Nat) (n : Nat) : Bool :=
  let v := n * unit.1
  if r.closed then r.lo * unit.2 ≤ v && v ≤ r.hi * unit.2
  else r.lo * unit.2 < v && v < r.hi * unit.2

/-- Looks for a multiple of `10 ^ exponent` that rounds to the number: of the two neighbours of the
number the nearer one, and the even one of two at the same distance. If neither rounds to it, the
next finer power of ten is tried, `fuel` times. -/
def search (x : Binary64) (r : Rounding) : Nat → Int → Option Decimal
  | 0, _ => none
  | fuel + 1, exponent =>
    -- One unit of the grid in quarters of the unit of the mantissa.
    let (n, d) := unscale 4 1 (-exponent)
    let unit := Binary64.unscale n d x.exponent
    let low := r.mid * unit.2 / unit.1
    let toLow := r.mid * unit.2 - low * unit.1
    let toHigh := (low + 1) * unit.1 - r.mid * unit.2
    let nearer := if toLow < toHigh ∨ (toLow = toHigh ∧ low % 2 = 0) then low else low + 1
    let other := if nearer = low then low + 1 else low
    if r.holds unit nearer then some ⟨nearer, exponent⟩
    else if r.holds unit other then some ⟨other, exponent⟩
    else search x r fuel (exponent - 1)

/-- The fewest digits that read back as the number, and of those the nearest. Seventeen suffice. -/
def shortest (x : Binary64) : Decimal :=
  if x.mantissa = 0 then ⟨0, 0⟩
  else
    let (num, den) := x.fraction
    ((search x (.of x) 18 (leadingExponent num den)).map (trim 18)).getD ⟨0, 0⟩

structure Layout where
  positionalFrom : Int
  positionalBelow : Int
  wholeSuffix : List Char
  positiveMark : List Char
  negativeMark : List Char

def zeros (count : Nat) : List Char := List.replicate count '0'

def render (layout : Layout) (d : Decimal) : List Char :=
  let digits := Nat.toDigits 10 d.digits
  let leading := d.exponent + digits.length - 1
  if layout.positionalFrom ≤ leading ∧ leading < layout.positionalBelow then
    if 0 ≤ d.exponent then digits ++ zeros d.exponent.toNat ++ layout.wholeSuffix
    else if 0 ≤ leading then
      let (whole, part) := digits.splitAt (leading.toNat + 1)
      whole ++ '.' :: part
    else '0' :: '.' :: zeros (leading.natAbs - 1) ++ digits
  else
    let mantissa :=
      match digits with
      | first :: second :: rest => first :: '.' :: second :: rest
      | short => short
    let mark := if 0 ≤ leading then layout.positiveMark else layout.negativeMark
    mantissa ++ mark ++ Nat.toDigits 10 leading.natAbs

end Decimal
end GuidedDecoding
