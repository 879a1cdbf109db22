import GuidedDecoding.Matcher.Basic
import GuidedDecoding.Text.SharedPrefix

namespace GuidedDecoding

/-- What is known of the token that was tried last. -/
structure TokenWalk where
  bytes : List UInt8
  reached : List PositionSet
  dead : Option Nat

def TokenWalk.start : TokenWalk := ⟨[], [], none⟩

namespace Automaton

/-- The positions after the first byte of a token. A space to be dropped leaves them as they are, and other
bytes are tried only if they are among `allowed`. -/
def stepFirst (a : Automaton) (dropSpace : Bool) (allowed : Std.TreeSet UInt8) (set : PositionSet) (b : UInt8) :
    PositionSet :=
  if dropSpace && b == 0x20 then set
  else if allowed.contains b then a.step set b
  else .empty

def walk (a : Automaton) (step : UInt8 → PositionSet) : List UInt8 → List PositionSet × Bool
  | [] => ([], true)
  | b :: bytes =>
    let next := step b
    if next.isDead then ([], false)
    else
      let (rest, alive) := walk a (a.step next) bytes
      (next :: rest, alive)

def stepBehind (a : Automaton) (first : UInt8 → PositionSet) (reached : List PositionSet) : UInt8 → PositionSet :=
  match reached.getLast? with
  | some set => a.step set
  | none => first

/-- Tries a token after another. Where the two begin alike, the positions are known, and if the other led nowhere
there, so does this one. -/
def tryToken (a : Automaton) (first : UInt8 → PositionSet) (last : TokenWalk) (bytes : List UInt8) : TokenWalk :=
  let shared := sharedPrefixLength last.bytes bytes
  if last.dead.any (· ≤ shared) then { last with bytes := bytes }
  else
    let known := last.reached.take shared
    let (further, alive) := a.walk (a.stepBehind first known) (bytes.drop known.length)
    let reached := known ++ further
    ⟨bytes, reached, if alive then none else some (reached.length + 1)⟩

def allowTokens (a : Automaton) (dropSpace : Bool) (set : PositionSet) (mask : TokenMask)
    (tokens : List RegularToken) : TokenMask :=
  let allowed := a.firstBytes set
  (tokens.foldl (fun (last, mask) token =>
    let last := a.tryToken (a.stepFirst dropSpace allowed set) last token.bytes
    (last, if last.dead.isNone then mask.allow token.id else mask)) (TokenWalk.start, mask)).2

end Automaton

inductive MaskError where
  | stopped
  deriving Repr, DecidableEq

def MaskError.message : MaskError → String
  | stopped => "The matcher has consumed a stop token. No more tokens can be accepted."

namespace Matcher

def maskBound (m : Matcher) : Nat := min m.constraint.maskSize m.constraint.vocabulary.size

def candidates (m : Matcher) : List RegularToken :=
  m.constraint.vocabulary.sorted.filter fun token =>
    decide (token.id < m.maskBound) && !m.constraint.stopTokens.contains token.id

def stopCandidates (m : Matcher) : List Nat :=
  if m.current.positions.accepting then m.constraint.stopTokens.filter (· < m.maskBound) else []

def computeMask (m : Matcher) : TokenMask × List Event :=
  let candidates := m.candidates
  let regular := m.constraint.automaton.allowTokens m.dropsSpace m.current.positions
    (.none m.constraint.maskSize) candidates
  let mask := m.stopCandidates.foldl TokenMask.allow regular
  (mask, [.computedMask mask.count candidates.length])

/-- Keeps a mask for the current state. A full cache is cleared first. -/
def store (m : Matcher) (mask : TokenMask) : Matcher × List Event :=
  let key := (m.current.positions, m.dropsSpace)
  if m.constraint.maxCached = 0 then (m, [])
  else if m.constraint.maxCached ≤ m.cache.length then
    ({ m with cache := [(key, mask)] }, [.clearedCache m.cache.length])
  else ({ m with cache := (key, mask) :: m.cache }, [])

def mask (m : Matcher) : Except MaskError (TokenMask × Matcher × List Event) :=
  if m.current.stopped then .error .stopped
  else if m.constraint.cacheMasks then
    match m.cache.lookup (m.current.positions, m.dropsSpace) with
    | some mask => .ok (mask, m, [])
    | none =>
      let (mask, computed) := m.computeMask
      let (m, stored) := m.store mask
      .ok (mask, m, computed ++ stored)
  else
    let (mask, computed) := m.computeMask
    .ok (mask, m, computed)

def hasKept (m : Matcher) : Bool :=
  m.constraint.cacheMasks && (m.cache.lookup (m.current.positions, m.dropsSpace)).isSome

/-- The mask as far as its size allows: where a mask has to be computed whose words cannot be counted, there is
no answer. -/
def findMask? (m : Matcher) : Option (Except MaskError (TokenMask × Matcher × List Event)) :=
  if m.current.stopped || m.hasKept then some m.mask
  else (TokenMask.wordCount? m.constraint.maskSize).map fun _ => m.mask

end Matcher
end GuidedDecoding
