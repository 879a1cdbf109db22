import GuidedDecoding.Automaton.Run
import GuidedDecoding.TokenMask
import GuidedDecoding.Vocabulary.Basic

namespace GuidedDecoding

structure MatcherSettings where
  stopTokens : Option (List Nat) := none
  endsWhenMatched : Bool := false
  maskSize : Option Nat := none
  maxRollback : Nat := 0
  cacheMasks : Bool := true
  maxCached : Nat := 1024
  deriving Repr, DecidableEq, Inhabited

structure Constraint where
  grammar : Grammar
  automaton : Automaton
  vocabulary : Vocabulary
  stopTokens : List Nat
  endsWhenMatched : Bool
  maskSize : Nat
  maxRollback : Nat
  cacheMasks : Bool
  maxCached : Nat

structure Progress where
  positions : PositionSet
  stopped : Bool
  accepted : Nat
  deriving Repr, DecidableEq

/-- A matcher follows one text through a grammar, and remembers the states before the last few accepted inputs. -/
structure Matcher where
  constraint : Constraint
  current : Progress
  history : List Progress
  /-- The masks computed so far, the latest first. They depend on the positions, and on whether the
  leading space of a token is dropped. -/
  cache : List ((PositionSet × Bool) × TokenMask)

inductive MatcherError where
  | stopTokenOutOfRange (id size : Nat)
  deriving Repr, DecidableEq

def MatcherError.message : MatcherError → String
  | stopTokenOutOfRange id size =>
    s!"The stop token ID {id} is out of range for a vocabulary of size {size}."

inductive RollbackError where
  | limitExceeded (requested available limit : Nat)
  deriving Repr, DecidableEq

def RollbackError.message : RollbackError → String
  | limitExceeded requested available limit =>
    s!"Cannot roll back {requested} steps: {available} steps are recorded and at most {limit} " ++
      "can be rolled back."

namespace Matcher

def startOf (automaton : Automaton) : Progress := ⟨automaton.initial, false, 0⟩

def create (grammar : Grammar) (vocabulary : Vocabulary) (settings : MatcherSettings) :
    Except MatcherError Matcher :=
  let stopTokens := settings.stopTokens.getD vocabulary.endIds
  match stopTokens.find? (vocabulary.size ≤ ·) with
  | some id => .error (.stopTokenOutOfRange id vocabulary.size)
  | none =>
    let automaton := grammar.automaton
    .ok {
      constraint := {
        grammar := grammar
        automaton := automaton
        vocabulary := vocabulary
        stopTokens := stopTokens
        endsWhenMatched := settings.endsWhenMatched
        maskSize := settings.maskSize.getD vocabulary.size
        maxRollback := settings.maxRollback
        cacheMasks := settings.cacheMasks
        maxCached := settings.maxCached }
      current := startOf automaton
      history := []
      cache := [] }

def canEnd (m : Matcher) : Bool := m.current.stopped || m.current.positions.accepting

def hasEnded (m : Matcher) : Bool :=
  m.current.stopped || (m.constraint.endsWhenMatched && m.current.positions.accepting)

def dropsSpace (m : Matcher) : Bool :=
  m.current.accepted == 0 && m.constraint.vocabulary.leadingSpace

def proceed (m : Matcher) (positions : PositionSet) (stopped : Bool) : Matcher :=
  { m with
    current := ⟨positions, stopped, m.current.accepted + 1⟩
    history := (m.current :: m.history).take m.constraint.maxRollback }

def advance? (m : Matcher) (bytes : List UInt8) : Option Matcher :=
  (m.constraint.automaton.stepBytes? m.current.positions bytes).map (m.proceed · m.current.stopped)

def acceptBytes? (m : Matcher) (bytes : List UInt8) : Option Matcher :=
  if m.current.stopped then none else m.advance? bytes

def withoutSpace : List UInt8 → List UInt8
  | 0x20 :: bytes => bytes
  | bytes => bytes

/-- Accepts a token, if it may come next, and says why a refusal is worth noting. -/
def acceptToken? (m : Matcher) (id : Nat) : Option Matcher × List Event :=
  if m.current.stopped then (none, [.refusedAfterStop id])
  else if m.constraint.stopTokens.contains id then
    if m.current.positions.accepting then (some (m.proceed m.current.positions true), [])
    else (none, [.refusedStop id])
  else
    match m.constraint.vocabulary.entries[id]? with
    | none => (none, [])
    | some entry =>
      if entry.special then (none, [])
      else (m.advance? (if m.dropsSpace then withoutSpace entry.decoded else entry.decoded), [])

def rollback (m : Matcher) (count : Nat) : Except RollbackError (Matcher × List Event) :=
  if m.constraint.maxRollback < count ∨ m.history.length < count then
    .error (.limitExceeded count m.history.length m.constraint.maxRollback)
  else
    match (m.current :: m.history).drop count, count with
    | progress :: history, _ + 1 =>
      .ok ({ m with current := progress, history := history }, [.rolledBack count])
    | _, _ => .ok (m, [])

def reset (m : Matcher) : Matcher × List Event :=
  ({ m with current := startOf m.constraint.automaton, history := [] }, [.reset])

end Matcher
end GuidedDecoding
