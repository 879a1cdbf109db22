import GuidedDecoding.Text.CodeRange

namespace GuidedDecoding

structure ByteRange where
  lo : UInt8
  hi : UInt8
  deriving Repr, DecidableEq, Inhabited

namespace ByteRange

def contains (r : ByteRange) (b : UInt8) : Bool := r.lo ≤ b && b ≤ r.hi

def bytes (r : ByteRange) : List UInt8 :=
  (List.range' r.lo.toNat (r.hi.toNat + 1 - r.lo.toNat)).map UInt8.ofNat

def matchAll : List ByteRange → List UInt8 → Bool
  | [], [] => true
  | r :: ranges, b :: bytes => r.contains b && matchAll ranges bytes
  | _, _ => false

end ByteRange

/-- A stretch of scalar values whose encodings have the same length: `trail` continuation bytes
after a first byte whose marker bits are `marker`. -/
structure Utf8Zone where
  first : Nat
  last : Nat
  trail : Nat
  marker : Nat
  deriving Repr, DecidableEq

namespace Utf8Zone

def all : List Utf8Zone :=
  [⟨0, 0x7F, 0, 0⟩, ⟨0x80, 0x7FF, 1, 0xC0⟩, ⟨0x800, 0xD7FF, 2, 0xE0⟩, ⟨0xE000, 0xFFFF, 2, 0xE0⟩,
    ⟨0x10000, 0x10FFFF, 3, 0xF0⟩]

/-- The numbers `lo` to `hi`, written with `trail` digits in base 64 after a leading one, as
sequences of digit ranges. A block of numbers with the same leading digit is split on its own unless
it is complete. -/
def blocks : Nat → Nat → Nat → List (List (Nat × Nat))
  | 0, lo, hi => [[(lo, hi)]]
  | trail + 1, lo, hi =>
    let width := 1 <<< (6 * (trail + 1))
    let (first, start) := (lo / width, lo % width)
    let (last, stop) := (hi / width, hi % width)
    let within (digit : Nat) (start stop : Nat) :=
      (blocks trail start stop).map ((digit, digit) :: ·)
    if first = last then within first start stop
    else
      let low := if start = 0 then [] else within first start (width - 1)
      let high := if stop = width - 1 then [] else within last 0 stop
      let lower := if start = 0 then first else first + 1
      let upper := if stop = width - 1 then last + 1 else last
      let middle :=
        if lower < upper then
          [(lower, upper - 1) :: List.replicate (trail + 1) (0, 63)]
        else []
      low ++ middle ++ high

def mark (zone : Utf8Zone) : List (Nat × Nat) → List ByteRange
  | [] => []
  | (lo, hi) :: trail =>
    ⟨UInt8.ofNat (zone.marker + lo), UInt8.ofNat (zone.marker + hi)⟩ ::
      trail.map fun (lo, hi) => ⟨UInt8.ofNat (0x80 + lo), UInt8.ofNat (0x80 + hi)⟩

def lower (zone : Utf8Zone) (range : CodeRange) : List (List ByteRange) :=
  let lo := max range.lo zone.first
  let hi := min range.hi zone.last
  if lo ≤ hi then (blocks zone.trail lo hi).map zone.mark else []

end Utf8Zone

def CodeRange.toUtf8 (range : CodeRange) : List (List ByteRange) :=
  Utf8Zone.all.flatMap (·.lower range)

end GuidedDecoding
