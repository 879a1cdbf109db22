import GuidedDecoding.Matcher.Basic

namespace GuidedDecoding

/-- A grammar may force a text without end, of which this many bytes are given. -/
def maxJumpForward : Nat := 4096

/-- Up to `count` bytes each of which is the only one that can come next, as long as the main rule
is not matched. -/
def Automaton.forcedBytes (a : Automaton) : Nat → PositionSet → List UInt8
  | 0, _ => []
  | count + 1, set =>
    if set.accepting then []
    else
      match a.forcedByte? set with
      | none => []
      | some b => b :: forcedBytes a count (a.step set b)

def Matcher.jumpForward (m : Matcher) : List Char :=
  if m.current.stopped then []
  else (Utf8.decodePrefix
    (m.constraint.automaton.forcedBytes maxJumpForward m.current.positions)).1

end GuidedDecoding
