namespace GuidedDecoding

/-- The number `mantissa * 2 ^ exponent`. The mantissa has 53 bits unless the exponent is the least
one, -1074. -/
structure Binary64 where
  mantissa : Nat
  exponent : Int
  deriving Repr, DecidableEq, Inhabited

namespace Binary64

def leadingBit : Nat := 0x10000000000000

def zero : Binary64 := ⟨0, -1074⟩

def roundQuotient (num den : Nat) : Nat :=
  let q := num / den
  let r := num % den
  if den < 2 * r ∨ (2 * r = den ∧ q % 2 = 1) then q + 1 else q

def unscale (num den : Nat) : Int → Nat × Nat
  | .ofNat e => (num, den <<< e)
  | .negSucc e => (num <<< (e + 1), den)

/-- The number nearest to a fraction, the one with an even mantissa of two. A fraction beyond the
greatest number rounds to none. -/
def round? (num den : Nat) : Option Binary64 :=
  if num = 0 then some zero
  else
    let guess : Int := max (-1074) (num.log2 - den.log2 - 52 : Int)
    let (n, d) := unscale num den guess
    let exponent := if n / d < leadingBit then max (-1074) (guess - 1) else guess
    let (n, d) := unscale num den exponent
    let m := roundQuotient n d
    let (m, exponent) := if m = 2 * leadingBit then (leadingBit, exponent + 1) else (m, exponent)
    if 971 < exponent then none else some ⟨m, exponent⟩

def fraction (x : Binary64) : Nat × Nat := unscale x.mantissa 1 (-x.exponent)

def mul? (x y : Binary64) : Option Binary64 :=
  round? (x.fraction.1 * y.fraction.1) (x.fraction.2 * y.fraction.2)

def div? (x y : Binary64) : Option Binary64 :=
  round? (x.fraction.1 * y.fraction.2) (x.fraction.2 * y.fraction.1)

def tens? (exponent : Nat) : Option Binary64 := round? (Nat.pow 10 exponent) 1

def maxTens : Nat := 308

def divideTens? : Nat → Binary64 → Option Binary64
  | 0, x => some x
  | count + 1, x =>
    if x.mantissa = 0 then some x
    else (tens? maxTens).bind fun power => (x.div? power).bind (divideTens? count)

def scaleTens? (x : Binary64) : Int → Option Binary64
  | .ofNat e =>
    if e ≤ maxTens then (tens? e).bind x.mul?
    else if x.mantissa = 0 then some x
    else none
  | .negSucc e => do
    let count := e / maxTens
    let x ← divideTens? count x
    let power ← tens? (e + 1 - count * maxTens)
    x.div? power

end Binary64
end GuidedDecoding
