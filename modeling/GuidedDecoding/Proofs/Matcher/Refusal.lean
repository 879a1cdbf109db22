import Mathlib
import GuidedDecoding.Proofs.Matcher.Ideal

namespace GuidedDecoding

/-- Whether a call only asks for something. -/
def Call.asks : Call → Bool
  | .perform (.accept _) | .perform (.rollback _) | .perform .reset => false
  | .perform .mask | .perform .jumpForward | .canEnd | .hasEnded | .historyLength => true

/-- Whether an answer is that nothing was done. -/
def Answer.refuses : Answer → Bool
  | .accepted yes => !yes
  | .rolledBack (.error _) | .mask (.error _) => true
  | .rolledBack (.ok _) | .mask (.ok _) | .reset | .forced _ | .ended _ | .length _ => false

namespace IdealMatcher

variable {ideal : IdealMatcher} {call : Call}

theorem after_of_asks (asks : call.asks = true) : ideal.after call = ideal := by
  cases call with
  | perform operation =>
    cases operation with
    | accept _ => cases asks
    | rollback _ => cases asks
    | reset => cases asks
    | mask => rfl
    | jumpForward => rfl
  | canEnd => rfl
  | hasEnded => rfl
  | historyLength => rfl

theorem accept_of_refuses {input : Input} (refused : (ideal.answer (.perform (.accept input))).refuses = true) :
    ideal.accept input = ideal := by
  change (!(ideal.bare.accept? input).isSome) = true at refused
  have nowhere : ideal.bare.accept? input = none := by simpa using refused
  rw [accept, nowhere]

theorem rollback_of_refuses {count : Nat} (refused : (ideal.answer (.perform (.rollback count))).refuses = true) :
    ideal.rollback count = ideal := by
  by_cases within : count ≤ ideal.reach
  · rw [answer, if_pos within] at refused
    cases refused
  · rw [rollback, if_neg within]

theorem after_of_refuses (refused : (ideal.answer call).refuses = true) : ideal.after call = ideal := by
  cases call with
  | perform operation =>
    cases operation with
    | accept input => exact accept_of_refuses refused
    | rollback count => exact rollback_of_refuses refused
    | reset => cases refused
    | mask => rfl
    | jumpForward => rfl
  | canEnd => rfl
  | hasEnded => rfl
  | historyLength => rfl

end IdealMatcher

namespace Matcher

/-- Two matchers that the same ideal one stands for differ only in the masks that they keep. -/
theorem Tracks.alike {m n : Matcher} {ideal : IdealMatcher} (one : m.Tracks ideal) (other : n.Tracks ideal) :
    m.current = n.current ∧ m.history = n.history ∧ ∀ calls, m.answers calls = n.answers calls :=
  ⟨one.current.symm.trans other.current, one.history.trans other.history.symm, fun calls =>
    (one.answers calls).trans (other.answers calls).symm⟩

/-- Whatever was done with a matcher, a call that only asks for something or that is refused leaves its state and
its history alone, and it answers all later calls as if that call had not been made. -/
theorem answers_after_refusal {grammar : Grammar} {vocabulary : Vocabulary} {settings : MatcherSettings}
    {start : Matcher} (created : create grammar vocabulary settings = .ok start) (earlier : List Call) {call : Call}
    (idle : call.asks = true ∨ ((start.run earlier).answer call).refuses = true) :
    let m := start.run earlier
    (m.after call).current = m.current ∧ (m.after call).history = m.history ∧
      ∀ later, (m.after call).answers later = m.answers later := by
  intro m
  have tracks : m.Tracks (start.ideal.run earlier) := (tracks_created created).run earlier
  -- The ideal matcher keeps no masks, so it is the same after a mask as well.
  have same : (start.ideal.run earlier).after call = start.ideal.run earlier := by
    rcases idle with asks | refused
    · exact IdealMatcher.after_of_asks asks
    · exact IdealMatcher.after_of_refuses (tracks.answer call ▸ refused)
  have next := tracks.after call
  rw [same] at next
  exact next.alike tracks

theorem answers_after_refusal_letters :
    ∃ vocabulary start,
      (Vocabulary.ofTokens [[98], [97], [60, 47, 115, 62]] .raw true).1 = .ok vocabulary ∧
      create Grammar.letters vocabulary { stopTokens := some [2], maxRollback := 2, maxCached := 1 } = .ok start ∧
      let m := start.run [.perform .mask, .perform (.accept (.bytes [98, 98]))]
      (m.after (.perform .mask)).cache ≠ m.cache ∧
      ∀ call ∈ [.perform .mask, .perform (.accept (.token 7)), .perform (.accept (.bytes [98, 100])),
          .perform (.rollback 2), .hasEnded],
        (call.asks = true ∨ (m.answer call).refuses = true) ∧
          (m.after call).current = m.current ∧ (m.after call).history = m.history ∧
            ∀ later, (m.after call).answers later = m.answers later := by
  obtain ⟨vocabulary, start, built, created, cleared, idle⟩ : ∃ vocabulary start,
      (Vocabulary.ofTokens [[98], [97], [60, 47, 115, 62]] .raw true).1 = .ok vocabulary ∧
      create Grammar.letters vocabulary { stopTokens := some [2], maxRollback := 2, maxCached := 1 } = .ok start ∧
      let m := start.run [.perform .mask, .perform (.accept (.bytes [98, 98]))]
      (m.after (.perform .mask)).cache ≠ m.cache ∧
      ∀ call ∈ [.perform .mask, .perform (.accept (.token 7)), .perform (.accept (.bytes [98, 100])),
          .perform (.rollback 2), .hasEnded],
        call.asks = true ∨ (m.answer call).refuses = true :=
    ⟨_, _, rfl, rfl, by with_unfolding_all decide, by with_unfolding_all decide⟩
  exact ⟨vocabulary, start, built, created, cleared, fun call member =>
    ⟨idle call member, answers_after_refusal created _ (idle call member)⟩⟩

end Matcher

end GuidedDecoding
