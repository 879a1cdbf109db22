import Mathlib
import GuidedDecoding.Proofs.Matcher.Mask

namespace GuidedDecoding

inductive Call where
  | perform (operation : Operation)
  | canEnd
  | hasEnded
  | historyLength
  deriving Repr, DecidableEq

inductive Answer where
  | accepted (yes : Bool)
  | rolledBack (result : Except RollbackError Unit)
  | reset
  | mask (result : Except MaskError TokenMask)
  | forced (text : List Char)
  | ended (yes : Bool)
  | length (n : Nat)

def Constraint.uncached (c : Constraint) : Constraint := { c with cacheMasks := false, maxCached := 0 }

namespace Matcher

def answer (m : Matcher) : Call → Answer
  | .perform (.accept input) => .accepted (m.accept? input).isSome
  | .perform (.rollback count) => .rolledBack ((m.rollback count).map fun _ => ())
  | .perform .reset => .reset
  | .perform .mask => .mask (m.mask.map Prod.fst)
  | .perform .jumpForward => .forced m.jumpForward
  | .canEnd => .ended m.canEnd
  | .hasEnded => .ended m.hasEnded
  | .historyLength => .length m.history.length

/-- The matcher after a call. A refused operation changes nothing. -/
def after (m : Matcher) : Call → Matcher
  | .perform operation => (m.perform? operation).getD m
  | .canEnd | .hasEnded | .historyLength => m

def answers (m : Matcher) : List Call → List Answer
  | [] => []
  | call :: calls => m.answer call :: (m.after call).answers calls

def run (m : Matcher) (calls : List Call) : Matcher := calls.foldl after m

def bare (m : Matcher) : Matcher := ⟨m.constraint.uncached, m.current, [], []⟩

def goOn (m : Matcher) (progress : Progress) : Matcher :=
  { m with
    current := progress
    history := (m.current :: m.history).take m.constraint.maxRollback }

def key (m : Matcher) : PositionSet × Bool := (m.current.positions, m.dropsSpace)

/-- Every kept mask is the one of all the states that it is kept for. -/
def Exact (m : Matcher) : Prop :=
  ∀ entry ∈ m.cache, ∀ n : Matcher, n.constraint = m.constraint → n.key = entry.1 →
    entry.2 = n.computeMask.1

end Matcher

/-- A matcher that remembers the states before all accepted inputs that were not taken back, the latest
first, and how many of these inputs may be taken back. -/
structure IdealMatcher where
  constraint : Constraint
  current : Progress
  past : List Progress
  reach : Nat

namespace IdealMatcher

def bare (ideal : IdealMatcher) : Matcher := ⟨ideal.constraint, ideal.current, [], []⟩

def answer (ideal : IdealMatcher) : Call → Answer
  | .perform (.rollback count) =>
    .rolledBack (if count ≤ ideal.reach then .ok ()
      else .error (.limitExceeded count ideal.reach ideal.constraint.maxRollback))
  | .historyLength => .length ideal.reach
  | call => ideal.bare.answer call

def accept (ideal : IdealMatcher) (input : Input) : IdealMatcher :=
  match ideal.bare.accept? input with
  | some next =>
    { ideal with
      current := next.current
      past := ideal.current :: ideal.past
      reach := min (ideal.reach + 1) ideal.constraint.maxRollback }
  | none => ideal

def rollback (ideal : IdealMatcher) (count : Nat) : IdealMatcher :=
  if count ≤ ideal.reach then
    { ideal with
      current := (ideal.current :: ideal.past).getD count ideal.current
      past := ideal.past.drop count
      reach := ideal.reach - count }
  else ideal

def after (ideal : IdealMatcher) : Call → IdealMatcher
  | .perform (.accept input) => ideal.accept input
  | .perform (.rollback count) => ideal.rollback count
  | .perform .reset =>
    { ideal with current := Matcher.startOf ideal.constraint.automaton, past := [], reach := 0 }
  | .perform .mask | .perform .jumpForward | .canEnd | .hasEnded | .historyLength => ideal

def answers (ideal : IdealMatcher) : List Call → List Answer
  | [] => []
  | call :: calls => ideal.answer call :: (ideal.after call).answers calls

def run (ideal : IdealMatcher) (calls : List Call) : IdealMatcher := calls.foldl after ideal

end IdealMatcher

namespace Matcher

def ideal (m : Matcher) : IdealMatcher :=
  ⟨m.constraint.uncached, m.current, m.history, m.history.length⟩

variable {m n next : Matcher}

@[simp] theorem bare_current (m : Matcher) : m.bare.current = m.current := rfl

@[simp] theorem bare_stopTokens (m : Matcher) :
    m.bare.constraint.stopTokens = m.constraint.stopTokens := rfl

@[simp] theorem bare_vocabulary (m : Matcher) :
    m.bare.constraint.vocabulary = m.constraint.vocabulary := rfl

@[simp] theorem bare_dropsSpace (m : Matcher) : m.bare.dropsSpace = m.dropsSpace := rfl

theorem advance?_eq (m : Matcher) (bytes : List UInt8) :
    m.advance? bytes = (m.bare.advance? bytes).map fun next => m.goOn next.current := by
  rw [advance?, advance?, Option.map_map]
  rfl

theorem acceptBytes?_eq (m : Matcher) (bytes : List UInt8) :
    m.acceptBytes? bytes = (m.bare.acceptBytes? bytes).map fun next => m.goOn next.current := by
  rw [acceptBytes?, acceptBytes?, bare_current, advance?_eq]
  split <;> rfl

theorem acceptToken?_eq (m : Matcher) (id : Nat) :
    (m.acceptToken? id).1 = (m.bare.acceptToken? id).1.map fun next => m.goOn next.current := by
  unfold acceptToken?
  rw [bare_current, bare_stopTokens, bare_vocabulary, bare_dropsSpace]
  split
  next => rfl
  next =>
    split
    next => split <;> rfl
    next =>
      split
      next => rfl
      next entry _ =>
        split
        next => rfl
        next => exact advance?_eq m _

/-- Whether an input is accepted, and where it leads, does not depend on what is remembered. -/
theorem accept?_eq (m : Matcher) (input : Input) :
    m.accept? input = (m.bare.accept? input).map fun next => m.goOn next.current := by
  cases input with
  | token id => exact acceptToken?_eq m id
  | bytes bytes => exact acceptBytes?_eq m bytes

theorem after_kept (m : Matcher) (call : Call) :
    (m.after call).constraint = m.constraint ∧ ((m.after call).cache = m.cache ∨
      ∃ mask events, m.mask = .ok (mask, m.after call, events)) := by
  cases call with
  | perform operation =>
    unfold after
    dsimp only
    cases performed : m.perform? operation with
    | none => exact ⟨rfl, .inl rfl⟩
    | some next =>
      cases performed_of_perform? performed with
      | accept accepted =>
        rw [accept?_eq] at accepted
        obtain ⟨_, _, rfl⟩ := Option.map_eq_some_iff.mp accepted
        exact ⟨rfl, .inl rfl⟩
      | rollback taken =>
        obtain ⟨_, constraint, cache, _⟩ := rollback_eq_ok taken
        exact ⟨constraint, .inl cache⟩
      | reset => exact ⟨rfl, .inl rfl⟩
      | mask made => exact ⟨(masked_of_mask made).2.constraint, .inr ⟨_, _, made⟩⟩
      | jumpForward => exact ⟨rfl, .inl rfl⟩
  | canEnd => exact ⟨rfl, .inl rfl⟩
  | hasEnded => exact ⟨rfl, .inl rfl⟩
  | historyLength => exact ⟨rfl, .inl rfl⟩

theorem constraint_run (m : Matcher) (calls : List Call) : (m.run calls).constraint = m.constraint := by
  induction calls generalizing m with
  | nil => rfl
  | cons call calls ih => exact (ih (m.after call)).trans (m.after_kept call).1

theorem computeMask_congr (constraint : n.constraint = m.constraint) (key : n.key = m.key) :
    n.computeMask = m.computeMask := by
  obtain ⟨positions, drops⟩ := Prod.mk.inj key
  have regular : n.candidates = m.candidates := by
    rw [candidates, candidates, maskBound, maskBound, constraint]
  have stops : n.stopCandidates = m.stopCandidates := by
    rw [stopCandidates, stopCandidates, maskBound, maskBound, constraint, positions]
  rw [computeMask, computeMask, regular, stops, constraint, positions, drops]

theorem Exact.congr (exact : m.Exact) (constraint : next.constraint = m.constraint)
    (cache : ∀ entry ∈ next.cache, entry ∈ m.cache) : next.Exact := by
  intro entry member n same key
  exact exact entry (cache entry member) n (same.trans constraint) key

theorem Exact.masked {mask : TokenMask} (exact : m.Exact) (masked : m.Masked mask next) :
    next.Exact := by
  intro entry member n same key
  have same := same.trans masked.constraint
  rcases masked.cache entry member with old | rfl
  · exact exact entry old n same key
  · rw [computeMask_congr same key]

theorem Exact.mask_eq {mask : TokenMask} (exact : m.Exact) (masked : m.Masked mask next) :
    mask = m.computeMask.1 := by
  rcases masked.source with computed | known
  · exact computed
  · obtain ⟨before, rest, split, _⟩ := List.lookup_eq_some_iff.mp known
    exact exact (m.key, mask) (by simp [split, key]) m rfl rfl

theorem bare_mask (m : Matcher) :
    m.bare.mask.map Prod.fst = if m.current.stopped then .error .stopped else .ok m.computeMask.1 := by
  rw [Matcher.mask, bare_current]
  split <;> rfl

theorem Exact.mask (exact : m.Exact) : m.mask.map Prod.fst = m.bare.mask.map Prod.fst := by
  rw [bare_mask]
  cases going : m.current.stopped with
  | true =>
    rw [Matcher.mask, going]
    rfl
  | false =>
    obtain ⟨mask, next, events, made⟩ := exists_mask going
    rw [made]
    exact congrArg Except.ok (exact.mask_eq (masked_of_mask made).2)

/-- A matcher and the ideal one after the same calls. -/
structure Tracks (m : Matcher) (ideal : IdealMatcher) : Prop where
  constraint : ideal.constraint = m.constraint.uncached
  current : ideal.current = m.current
  history : m.history = ideal.past.take ideal.reach
  length : m.history.length = ideal.reach
  bounded : ideal.reach ≤ m.constraint.maxRollback
  exact : m.Exact

theorem tracks_ideal (bounded : m.history.length ≤ m.constraint.maxRollback) (exact : m.Exact) :
    m.Tracks m.ideal :=
  ⟨rfl, rfl, (List.take_length).symm, rfl, bounded, exact⟩

theorem rollback_eq (bounded : m.history.length ≤ m.constraint.maxRollback) (count : Nat) :
    ((m.rollback count).map fun _ => ()) = if count ≤ m.history.length then .ok ()
      else .error (.limitExceeded count m.history.length m.constraint.maxRollback) := by
  by_cases within : count ≤ m.history.length
  · have allowed : ¬(m.constraint.maxRollback < count ∨ m.history.length < count) := by omega
    unfold Matcher.rollback
    rw [if_neg allowed, if_pos within]
    split <;> rfl
  · have refused : m.constraint.maxRollback < count ∨ m.history.length < count := by omega
    unfold Matcher.rollback
    rw [if_pos refused, if_neg within]
    rfl

theorem exists_rollback_iff (bounded : m.history.length ≤ m.constraint.maxRollback) (count : Nat) :
    (∃ next events, m.rollback count = .ok (next, events)) ↔ count ≤ m.history.length := by
  have result := rollback_eq bounded count
  constructor
  · intro h
    obtain ⟨next, events, taken⟩ := h
    exact (rollback_eq_ok taken).1
  · intro within
    rw [if_pos within] at result
    cases taken : m.rollback count with
    | error e =>
      rw [taken] at result
      cases result
    | ok result => exact ⟨result.1, result.2, rfl⟩

namespace Tracks

variable {ideal : IdealMatcher} (tracks : m.Tracks ideal)
include tracks

theorem bare : ideal.bare = m.bare := by
  rw [IdealMatcher.bare, tracks.constraint, tracks.current]
  rfl

theorem limit : ideal.constraint.maxRollback = m.constraint.maxRollback := by
  rw [tracks.constraint]
  rfl

theorem short : m.history.length ≤ m.constraint.maxRollback := tracks.length ▸ tracks.bounded

theorem answer (call : Call) : m.answer call = ideal.answer call := by
  cases call with
  | perform operation =>
    cases operation with
    | accept input =>
      change Answer.accepted _ = Answer.accepted (ideal.bare.accept? input).isSome
      rw [tracks.bare, accept?_eq, Option.isSome_map]
    | rollback count =>
      change Answer.rolledBack _ = Answer.rolledBack _
      rw [rollback_eq tracks.short, tracks.length, tracks.limit]
    | reset => rfl
    | mask =>
      change Answer.mask _ = Answer.mask (ideal.bare.mask.map Prod.fst)
      rw [tracks.bare, tracks.exact.mask]
    | jumpForward =>
      change Answer.forced _ = Answer.forced ideal.bare.jumpForward
      rw [tracks.bare]
      rfl
  | canEnd =>
    change Answer.ended _ = Answer.ended ideal.bare.canEnd
    rw [tracks.bare]
    rfl
  | hasEnded =>
    change Answer.ended _ = Answer.ended ideal.bare.hasEnded
    rw [tracks.bare]
    rfl
  | historyLength => exact congrArg Answer.length tracks.length

theorem accept (input : Input) :
    (m.after (.perform (.accept input))).Tracks (ideal.accept input) := by
  change ((m.accept? input).getD m).Tracks _
  rw [IdealMatcher.accept, tracks.bare, accept?_eq]
  cases m.bare.accept? input with
  | none => exact tracks
  | some next =>
    have length : ((m.current :: m.history).take m.constraint.maxRollback).length =
        min (ideal.reach + 1) m.constraint.maxRollback := by
      rw [List.length_take, List.length_cons, tracks.length, Nat.min_comm]
    have history : (m.current :: m.history).take m.constraint.maxRollback =
        (ideal.current :: ideal.past).take (min (ideal.reach + 1) m.constraint.maxRollback) := by
      rw [tracks.history, tracks.current, ← List.take_succ_cons, List.take_take, Nat.min_comm]
    dsimp only [Option.map_some, Option.getD_some]
    rw [tracks.limit]
    exact ⟨tracks.constraint, rfl, history, length, Nat.min_le_right _ _,
      tracks.exact.congr rfl fun _ member => member⟩

theorem states_eq : m.current :: m.history = (ideal.current :: ideal.past).take (ideal.reach + 1) := by
  rw [List.take_succ_cons, tracks.current, tracks.history]

theorem of_rollback {count : Nat} {events : List Event} (taken : m.rollback count = .ok (next, events)) :
    (ideal.current :: ideal.past)[count]? = some next.current ∧
      next.history = (ideal.past.drop count).take (ideal.reach - count) ∧
      next.history.length = ideal.reach - count := by
  obtain ⟨known, _, _, states⟩ := rollback_eq_ok taken
  have within : count ≤ ideal.reach := tracks.length ▸ known
  have length := congrArg List.length states
  rw [List.length_cons, List.length_drop, List.length_cons, tracks.length] at length
  rw [tracks.states_eq, List.drop_take, Nat.succ_sub within] at states
  cases remembered : (ideal.current :: ideal.past).drop count with
  | nil =>
    rw [remembered] at states
    cases states
  | cons progress past =>
    rw [remembered, List.take_succ_cons] at states
    obtain ⟨current, history⟩ := List.cons.inj states
    have rest : past = ideal.past.drop count := by
      have tail := congrArg List.tail remembered
      rw [List.tail_drop] at tail
      exact tail.symm
    refine ⟨?_, rest ▸ history, by omega⟩
    rw [← List.head?_drop, remembered, current]
    rfl

theorem rollback (count : Nat) :
    (m.after (.perform (.rollback count))).Tracks (ideal.rollback count) := by
  change (((m.rollback count).toOption.map Prod.fst).getD m).Tracks _
  have allowed := exists_rollback_iff tracks.short count
  rw [tracks.length] at allowed
  cases taken : m.rollback count with
  | error e =>
    have refused : ¬count ≤ ideal.reach := by simp [← allowed, taken]
    rw [IdealMatcher.rollback, if_neg refused]
    exact tracks
  | ok result =>
    obtain ⟨next, events⟩ := result
    obtain ⟨current, history, length⟩ := tracks.of_rollback taken
    obtain ⟨_, constraint, cache, _⟩ := rollback_eq_ok taken
    rw [IdealMatcher.rollback, if_pos (allowed.mp ⟨next, events, taken⟩), List.getD_eq_getElem?_getD, current]
    have kept : ideal.reach - count ≤ m.constraint.maxRollback :=
      Nat.le_trans (Nat.sub_le _ _) tracks.bounded
    refine ⟨?_, rfl, history, length, ?_, tracks.exact.congr constraint fun _ member => cache ▸ member⟩
    · exact constraint ▸ tracks.constraint
    · exact constraint ▸ kept

theorem reset : m.reset.1.Tracks (ideal.after (.perform .reset)) := by
  refine ⟨tracks.constraint, ?_, rfl, rfl, Nat.zero_le _, tracks.exact.congr rfl fun _ member => member⟩
  change startOf ideal.constraint.automaton = startOf m.constraint.automaton
  rw [tracks.constraint]
  rfl

theorem masked {mask : TokenMask} (masked : m.Masked mask next) : next.Tracks ideal := by
  refine ⟨?_, ?_, ?_, ?_, ?_, tracks.exact.masked masked⟩
  · exact masked.constraint ▸ tracks.constraint
  · exact masked.current ▸ tracks.current
  · exact masked.history ▸ tracks.history
  · exact masked.history ▸ tracks.length
  · exact masked.constraint ▸ tracks.bounded

theorem after (call : Call) : (m.after call).Tracks (ideal.after call) := by
  cases call with
  | perform operation =>
    cases operation with
    | accept input => exact tracks.accept input
    | rollback count => exact tracks.rollback count
    | reset => exact tracks.reset
    | mask =>
      change ((m.mask.toOption.map fun made => made.2.1).getD m).Tracks ideal
      cases made : m.mask with
      | error e => exact tracks
      | ok result => exact tracks.masked (masked_of_mask made).2
    | jumpForward => exact tracks
  | canEnd => exact tracks
  | hasEnded => exact tracks
  | historyLength => exact tracks

theorem run (calls : List Call) : (m.run calls).Tracks (ideal.run calls) := by
  induction calls generalizing m ideal with
  | nil => exact tracks
  | cons call calls ih => exact ih (tracks.after call)

theorem answers (calls : List Call) : m.answers calls = ideal.answers calls := by
  induction calls generalizing m ideal with
  | nil => rfl
  | cons call calls ih => rw [Matcher.answers, IdealMatcher.answers, tracks.answer, ih (tracks.after call)]

end Tracks

end Matcher

def MatcherSettings.constraint (settings : MatcherSettings) (grammar : Grammar) (vocabulary : Vocabulary) :
    Constraint where
  grammar := grammar
  automaton := grammar.automaton
  vocabulary := vocabulary
  stopTokens := settings.stopTokens.getD vocabulary.endIds
  endsWhenMatched := settings.endsWhenMatched
  maskSize := settings.maskSize.getD vocabulary.size
  maxRollback := settings.maxRollback
  cacheMasks := settings.cacheMasks
  maxCached := settings.maxCached

theorem Matcher.create_eq_ok {grammar : Grammar} {vocabulary : Vocabulary} {settings : MatcherSettings}
    {m : Matcher} :
    create grammar vocabulary settings = .ok m ↔
      (settings.stopTokens.getD vocabulary.endIds).find? (vocabulary.size ≤ ·) = none ∧
        m = ⟨settings.constraint grammar vocabulary, startOf grammar.automaton, [], []⟩ := by
  unfold create
  dsimp only
  split
  next id found => simp [found]
  next found =>
    rw [Except.ok.injEq]
    exact ⟨fun same => ⟨found, same.symm⟩, fun h => h.2.symm⟩

theorem Matcher.tracks_created {grammar : Grammar} {vocabulary : Vocabulary} {settings : MatcherSettings}
    {m : Matcher} (created : create grammar vocabulary settings = .ok m) : m.Tracks m.ideal := by
  obtain ⟨_, rfl⟩ := create_eq_ok.mp created
  exact tracks_ideal (Nat.zero_le _) fun entry member => absurd member List.not_mem_nil

/-- Whatever a matcher is asked to do, it answers like the ideal one and is in the same state. It can be
taken back as far as its history is long, to the states that the ideal matcher remembers, and every
accepted input makes the history longer by one, up to its limit. -/
theorem Matcher.rollback_as_ideal {grammar : Grammar} {vocabulary : Vocabulary}
    {settings : MatcherSettings} {start : Matcher}
    (created : create grammar vocabulary settings = .ok start) (calls : List Call) :
    let m := start.run calls
    let ideal := start.ideal.run calls
    start.answers calls = start.ideal.answers calls ∧ m.current = ideal.current ∧
      m.history = ideal.past.take m.history.length ∧ m.history.length ≤ settings.maxRollback ∧
      (∀ count, (∃ next events, m.rollback count = .ok (next, events)) ↔ count ≤ m.history.length) ∧
      (∀ count next events, m.rollback count = .ok (next, events) →
        (ideal.current :: ideal.past)[count]? = some next.current ∧
          next.history.length = m.history.length - count) ∧
      ∀ input next, m.accept? input = some next →
        next.history.length = min (m.history.length + 1) settings.maxRollback := by
  intro m ideal
  have tracks : m.Tracks ideal := (tracks_created created).run calls
  have limit : m.constraint.maxRollback = settings.maxRollback := by
    obtain ⟨_, rfl⟩ := create_eq_ok.mp created
    rw [constraint_run]
    rfl
  refine ⟨(tracks_created created).answers calls, tracks.current.symm, ?_, ?_, ?_, ?_, ?_⟩
  · rw [tracks.length]
    exact tracks.history
  · exact limit ▸ tracks.short
  · exact exists_rollback_iff tracks.short
  · intro count next events taken
    obtain ⟨current, _, length⟩ := tracks.of_rollback taken
    exact ⟨current, by rw [length, tracks.length]⟩
  · intro input next accepted
    rw [accept?_eq] at accepted
    obtain ⟨_, _, rfl⟩ := Option.map_eq_some_iff.mp accepted
    rw [goOn, List.length_take, List.length_cons, limit, Nat.min_comm]

def undoneCalls : List Call :=
  [.perform (.accept (.bytes [98])), .perform (.accept (.bytes [98])), .perform (.accept (.token 0)),
    .perform (.rollback 2), .perform (.accept (.token 1)), .perform (.rollback 2), .perform .mask,
    .perform (.accept (.token 2)), .perform (.rollback 1), .historyLength]

theorem Matcher.rollback_as_ideal_letters :
    ∃ vocabulary start,
      Matcher.create Grammar.letters vocabulary { stopTokens := some [2], maxRollback := 2 } = .ok start ∧
      let m := start.run undoneCalls
      let ideal := start.ideal.run undoneCalls
      start.answers undoneCalls = start.ideal.answers undoneCalls ∧ m.current = ideal.current ∧
        m.history = ideal.past.take m.history.length ∧ m.history.length ≤ 2 ∧
        (∀ count, (∃ next events, m.rollback count = .ok (next, events)) ↔ count ≤ m.history.length) ∧
        (∀ count next events, m.rollback count = .ok (next, events) →
          (ideal.current :: ideal.past)[count]? = some next.current ∧
            next.history.length = m.history.length - count) ∧
        ∀ input next, m.accept? input = some next →
          next.history.length = min (m.history.length + 1) 2 := by
  obtain ⟨vocabulary, start, _, created⟩ := Matcher.exists_letters
  exact ⟨vocabulary, start, created, Matcher.rollback_as_ideal created undoneCalls⟩

end GuidedDecoding
