import GuidedDecoding.Text.Splitting

namespace GuidedDecoding

def saturatingAdd (a b : UInt32) : UInt32 := (checkedAdd a b).getD 0xFFFFFFFF

namespace Stretch

def clamp (stretch : Stretch) : Stretch :=
  ⟨min stretch.start stretch.stop, min (max stretch.start stretch.stop) 0x10FFFF⟩

def precedes (earlier later : Stretch) : Bool :=
  earlier.start < later.start || (earlier.start == later.start && earlier.stop ≤ later.stop)

def arranged (stretches : List Stretch) : List Stretch :=
  ((stretches.map clamp).filter (·.start ≤ 0x10FFFF)).mergeSort precedes

/-- Adds a stretch to merged ones, of which the last one stands first. It is joined to that one if no
code point is missing between them. -/
def mergeOnto : Parts → Stretch → Parts
  | [], stretch => [stretch]
  | last :: earlier, stretch =>
    if stretch.start ≤ saturatingAdd last.stop 1 then ⟨last.start, max last.stop stretch.stop⟩ :: earlier
    else stretch :: last :: earlier

def merged (stretches : List Stretch) : Parts := ((arranged stretches).foldl mergeOnto []).reverse

def gaps? (next : UInt32) : Parts → Option Parts
  | [] => some (if next ≤ 0x10FFFF then [⟨next, 0x10FFFF⟩] else [])
  | stretch :: rest =>
    (checkedAdd stretch.stop 1).bind fun behind =>
      if next < stretch.start then
        (checkedSub stretch.start 1).bind fun last => (gaps? behind rest).map (⟨next, last⟩ :: ·)
      else gaps? behind rest

def canonical? (stretches : List Stretch) (negated : Bool) : Option Parts :=
  if negated then gaps? 0 (merged stretches) else some (merged stretches)

end Stretch
end GuidedDecoding
