import GuidedDecoding.Text.ByteRange

namespace GuidedDecoding

def checkedAdd (a b : UInt32) : Option UInt32 :=
  if a.toNat + b.toNat < UInt32.size then some (a + b) else none

def checkedSub (a b : UInt32) : Option UInt32 := if b ≤ a then some (a - b) else none

structure Stretch where
  start : UInt32
  stop : UInt32
  deriving Repr, DecidableEq, Inhabited

namespace Stretch

abbrev Parts := List Stretch

def cutBehind? (stretch : Stretch) : List UInt32 → Option (Option Parts)
  | [] => some none
  | last :: rest =>
    if stretch.start ≤ last ∧ last < stretch.stop then
      (checkedAdd last 1).map fun next => some [⟨stretch.start, last⟩, ⟨next, stretch.stop⟩]
    else cutBehind? stretch rest

/-- Cuts off a block that the stretch enters in its middle, or else one that it leaves in its middle.
A block is as long as the number of bits given for it can tell apart. -/
def cutBlock? (stretch : Stretch) : List UInt32 → Option (Option Parts)
  | [] => some none
  | bits :: rest =>
    match checkedSub (1 <<< bits) 1 with
    | none => none
    | some mask =>
      if stretch.start &&& ~~~mask = stretch.stop &&& ~~~mask then cutBlock? stretch rest
      else if stretch.start &&& mask ≠ 0 then
        let last := stretch.start ||| mask
        (checkedAdd last 1).map fun next => some [⟨stretch.start, last⟩, ⟨next, stretch.stop⟩]
      else if stretch.stop &&& mask ≠ mask then
        let next := stretch.stop &&& ~~~mask
        (checkedSub next 1).map fun last => some [⟨stretch.start, last⟩, ⟨next, stretch.stop⟩]
      else cutBlock? stretch rest

/-- The byte ranges between the encodings of both ends. Encodings of different lengths are a failure,
and a stretch whose ends are no characters has none. -/
def sequences? (stretch : Stretch) : Option (List (List ByteRange)) :=
  if stretch.start.toNat.isValidChar ∧ stretch.stop.toNat.isValidChar then
    let first := String.utf8EncodeChar (Char.ofNat stretch.start.toNat)
    let last := String.utf8EncodeChar (Char.ofNat stretch.stop.toNat)
    if first.length = last.length then some [List.zipWith ByteRange.mk first last] else none
  else some []

/-- What becomes of a stretch: smaller ones, the next one first, or sequences. -/
structure Round where
  parts : Parts
  sequences : List (List ByteRange)

def round? (stretch : Stretch) : Option Round :=
  if stretch.start < 0xE000 ∧ 0xD7FF < stretch.stop then
    let above : Parts := if 0xDFFF < stretch.stop then [⟨0xE000, stretch.stop⟩] else []
    if 0xD7FF < stretch.start then some ⟨above, []⟩
    else some ⟨⟨stretch.start, 0xD7FF⟩ :: above, []⟩
  else if stretch.stop < stretch.start then some ⟨[], []⟩
  else
    match stretch.cutBehind? [0x7F, 0x7FF, 0xFFFF] with
    | none => none
    | some (some parts) => some ⟨parts, []⟩
    | some none =>
      if stretch.stop ≤ 0x7F then
        some ⟨[], [[⟨stretch.start.toUInt8, stretch.stop.toUInt8⟩]]⟩
      else
        match stretch.cutBlock? [6, 12, 18] with
        | none => none
        | some (some parts) => some ⟨parts, []⟩
        | some none => stretch.sequences?.map (⟨[], ·⟩)

end Stretch

structure Splitting where
  waiting : List Stretch
  found : List (List ByteRange)

namespace Splitting

def start (first last : UInt32) : Splitting := ⟨[⟨first, min last 0x10FFFF⟩], []⟩

def step? (splitting : Splitting) : Option Splitting :=
  match splitting.waiting with
  | [] => some splitting
  | stretch :: rest =>
    stretch.round?.map fun round => ⟨round.parts ++ rest, splitting.found ++ round.sequences⟩

def run? : Nat → Splitting → Option Splitting
  | 0, splitting => some splitting
  | rounds + 1, splitting => splitting.step?.bind (run? rounds)

end Splitting
end GuidedDecoding
