import Mathlib
import GuidedDecoding.Proofs.Matcher.Ideal

namespace GuidedDecoding

namespace Matcher

variable {m : Matcher}

theorem length_store (bounded : m.cache.length ≤ m.constraint.maxCached) (mask : TokenMask) :
    (m.store mask).1.cache.length ≤ m.constraint.maxCached := by
  unfold store
  dsimp only
  split
  next => exact bounded
  next some =>
    split
    next => exact Nat.pos_of_ne_zero some
    next room => exact Nat.lt_of_not_le room

theorem length_mask {mask : TokenMask} {next : Matcher} {events : List Event}
    (bounded : m.cache.length ≤ m.constraint.maxCached) (made : m.mask = .ok (mask, next, events)) :
    next.cache.length ≤ m.constraint.maxCached := by
  rw [Matcher.mask] at made
  split at made
  next => cases made
  next =>
    split at made
    next =>
      split at made
      next =>
        cases made
        exact bounded
      next =>
        cases made
        exact length_store bounded _
    next =>
      cases made
      exact bounded

theorem length_run (bounded : m.cache.length ≤ m.constraint.maxCached) (calls : List Call) :
    (m.run calls).cache.length ≤ m.constraint.maxCached := by
  induction calls generalizing m with
  | nil => exact bounded
  | cons call calls ih =>
    obtain ⟨constraint, kept⟩ := m.after_kept call
    have next : (m.after call).cache.length ≤ m.constraint.maxCached := by
      rcases kept with cache | ⟨mask, events, made⟩
      · rwa [cache]
      · exact length_mask bounded made
    rw [← constraint] at next ⊢
    exact ih next

theorem length_run_created {grammar : Grammar} {vocabulary : Vocabulary} {settings : MatcherSettings}
    (created : create grammar vocabulary settings = .ok m) (calls : List Call) :
    (m.run calls).cache.length ≤ settings.maxCached := by
  obtain ⟨_, rfl⟩ := create_eq_ok.mp created
  exact length_run (Nat.zero_le _) calls

/-- A matcher that keeps masks, however many, gives the answers of one that keeps none, and never keeps
more than it may. -/
theorem answers_uncached {grammar : Grammar} {vocabulary : Vocabulary} {settings : MatcherSettings}
    {maxCached : Nat} {cached : Matcher}
    (created : create grammar vocabulary { settings with cacheMasks := true, maxCached := maxCached } =
      .ok cached) :
    ∃ plain, create grammar vocabulary { settings with cacheMasks := false } = .ok plain ∧
      ∀ calls, cached.answers calls = plain.answers calls ∧
        (cached.run calls).cache.length ≤ maxCached ∧
        (plain.run calls).cache.length ≤ settings.maxCached := by
  obtain ⟨inRange, same⟩ := create_eq_ok.mp created
  obtain ⟨plain, made⟩ : ∃ plain,
      create grammar vocabulary { settings with cacheMasks := false } = .ok plain :=
    ⟨_, create_eq_ok.mpr ⟨inRange, rfl⟩⟩
  have ideal : cached.ideal = plain.ideal := by
    rw [same, (create_eq_ok.mp made).2]
    rfl
  refine ⟨plain, made, fun calls => ⟨?_, length_run_created created calls, length_run_created made calls⟩⟩
  rw [(tracks_created created).answers, ideal, (tracks_created made).answers]

def maskedCalls : List Call :=
  [.perform .mask, .perform (.accept (.token 0)), .perform .mask, .perform .mask, .perform (.rollback 1),
    .perform .mask, .perform (.accept (.token 1)), .perform .jumpForward, .canEnd, .perform .reset,
    .perform .mask]

theorem answers_uncached_letters :
    ∃ vocabulary cached,
      create Grammar.letters vocabulary
        { stopTokens := some [2], maxRollback := 2, cacheMasks := true, maxCached := 1 } = .ok cached ∧
      ∃ plain, create Grammar.letters vocabulary
          { stopTokens := some [2], maxRollback := 2, cacheMasks := false } = .ok plain ∧
        cached.answers maskedCalls = plain.answers maskedCalls ∧
          (cached.run maskedCalls).cache.length ≤ 1 ∧ (plain.run maskedCalls).cache.length ≤ 1024 := by
  obtain ⟨vocabulary, start, built, created⟩ := exists_letters
  have inRange := (create_eq_ok.mp created).1
  obtain ⟨plain, made, answers⟩ := @answers_uncached Grammar.letters vocabulary
    { stopTokens := some [2], maxRollback := 2 } 1 _ (create_eq_ok.mpr ⟨inRange, rfl⟩)
  exact ⟨vocabulary, _, create_eq_ok.mpr ⟨inRange, rfl⟩, plain, made, answers maskedCalls⟩

/-- After a reset a matcher gives the answers of a new one, although it still keeps its masks. -/
theorem answers_reset {grammar : Grammar} {vocabulary : Vocabulary} {settings : MatcherSettings}
    {new : Matcher} (created : create grammar vocabulary settings = .ok new) (earlier : List Call) :
    let used := new.run earlier
    used.reset.1.cache = used.cache ∧ ∀ calls, used.reset.1.answers calls = new.answers calls := by
  intro used
  refine ⟨rfl, fun calls => ?_⟩
  have tracks := ((tracks_created created).run earlier).reset
  have constraint : used.constraint = new.constraint := constraint_run new earlier
  have ideal : used.reset.1.ideal = new.ideal := by
    change (⟨used.constraint.uncached, startOf used.constraint.automaton, [], 0⟩ : IdealMatcher) = _
    rw [constraint, (create_eq_ok.mp created).2]
    rfl
  rw [(tracks_ideal (Nat.zero_le _) tracks.exact).answers, ideal, (tracks_created created).answers]

theorem answers_reset_letters :
    ∃ vocabulary new,
      create Grammar.letters vocabulary { stopTokens := some [2], maxRollback := 2 } = .ok new ∧
      let used := new.run maskedCalls
      used.reset.1.cache = used.cache ∧ ∀ calls, used.reset.1.answers calls = new.answers calls := by
  obtain ⟨vocabulary, new, _, created⟩ := exists_letters
  exact ⟨vocabulary, new, created, answers_reset created maskedCalls⟩

end Matcher

end GuidedDecoding
