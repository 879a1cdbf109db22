import Mathlib
import GuidedDecoding.Proofs.Automaton.Closure
import GuidedDecoding.Proofs.Matcher.Session
import GuidedDecoding.Proofs.TokenMask
import GuidedDecoding.Proofs.Vocabulary.Index

namespace GuidedDecoding

namespace Automaton

variable {a : Automaton}

theorem contains_firstBytes {set : PositionSet} {b : UInt8} :
    (a.firstBytes set).contains b = true ↔ ∃ p, p ∈ a.consume set b := by
  rw [firstBytes, Std.TreeSet.contains_iff_mem, Std.TreeSet.mem_ofList, List.contains_iff_mem]
  simp only [consume, List.mem_flatMap, List.mem_filterMap, ByteRange.mem_bytes]
  constructor
  · intro allowed
    obtain ⟨p, among, edge, leads, inside⟩ := allowed
    exact ⟨⟨edge.2, p.returns⟩, p, among, edge, leads, if_pos inside⟩
  · intro consumed
    obtain ⟨_, p, among, edge, leads, taken⟩ := consumed
    split at taken
    next inside => exact ⟨p, among, edge, leads, inside⟩
    next => cases taken

theorem step_eq_empty {set : PositionSet} {b : UInt8} (absent : (a.firstBytes set).contains b = false) :
    a.step set b = .empty := by
  have nothing : a.consume set b = [] := by
    rw [List.eq_nil_iff_forall_not_mem]
    intro p taken
    exact Bool.eq_false_iff.mp absent (contains_firstBytes.mpr ⟨p, taken⟩)
  rw [step, nothing, closure_nil]

theorem stepFirst_firstBytes (dropSpace : Bool) (set : PositionSet) (b : UInt8) :
    a.stepFirst dropSpace (a.firstBytes set) set b = if dropSpace && b == 0x20 then set else a.step set b := by
  rw [stepFirst]
  cases among : (a.firstBytes set).contains b with
  | true => rw [if_pos rfl]
  | false => rw [if_neg Bool.false_ne_true, step_eq_empty among]

section

variable {step : UInt8 → PositionSet}

theorem walk_append {bytes : List UInt8} (alive : (a.walk step bytes).2 = true) (further : List UInt8) :
    a.walk step (bytes ++ further) =
      let onward := a.walk (a.stepBehind step (a.walk step bytes).1) further
      ((a.walk step bytes).1 ++ onward.1, onward.2) := by
  induction bytes generalizing step with
  | nil => rfl
  | cons b bytes ih =>
    rw [walk] at alive
    rw [List.cons_append, walk, walk]
    cases dead : (step b).isDead with
    | true => simp [dead] at alive
    | false =>
      rw [dead, if_neg Bool.false_ne_true] at alive
      have behind : a.stepBehind step (step b :: (a.walk (a.step (step b)) bytes).1) =
          a.stepBehind (a.step (step b)) (a.walk (a.step (step b)) bytes).1 := by
        unfold stepBehind
        rw [List.getLast?_cons]
        cases (a.walk (a.step (step b)) bytes).1.getLast? <;> rfl
      simp only [Bool.false_eq_true, if_false, ih alive, behind, List.cons_append]

theorem walk_append_dead {bytes : List UInt8} (dead : (a.walk step bytes).2 = false) (further : List UInt8) :
    a.walk step (bytes ++ further) = a.walk step bytes := by
  induction bytes generalizing step with
  | nil => cases dead
  | cons b bytes ih =>
    rw [walk] at dead
    rw [List.cons_append, walk, walk]
    cases stuck : (step b).isDead with
    | true => rfl
    | false =>
      rw [stuck, if_neg Bool.false_ne_true] at dead
      simp only [Bool.false_eq_true, if_false, ih dead]

theorem walk_take {bytes : List UInt8} {count : Nat} (few : count ≤ (a.walk step bytes).1.length) :
    a.walk step (bytes.take count) = ((a.walk step bytes).1.take count, true) := by
  induction bytes generalizing step count with
  | nil => simp [walk]
  | cons b bytes ih =>
    cases count with
    | zero => rfl
    | succ count =>
      rw [walk] at few
      rw [List.take_succ_cons, walk, walk]
      cases dead : (step b).isDead with
      | true => simp [dead] at few
      | false =>
        rw [dead, if_neg Bool.false_ne_true] at few
        simp only [Bool.false_eq_true, if_false, ih (Nat.le_of_succ_le_succ few), List.take_succ_cons]

theorem walk_take_dead {bytes : List UInt8} {count : Nat} (dead : (a.walk step bytes).2 = false)
    (many : (a.walk step bytes).1.length < count) : a.walk step (bytes.take count) = a.walk step bytes := by
  induction bytes generalizing step count with
  | nil => cases dead
  | cons b bytes ih =>
    cases count with
    | zero => cases many
    | succ count =>
      rw [walk] at dead many
      rw [List.take_succ_cons, walk, walk]
      cases stuck : (step b).isDead with
      | true => rfl
      | false =>
        rw [stuck, if_neg Bool.false_ne_true] at dead many
        simp only [Bool.false_eq_true, if_false, ih dead (Nat.lt_of_succ_lt_succ many)]

theorem length_walk {bytes : List UInt8} (alive : (a.walk step bytes).2 = true) :
    (a.walk step bytes).1.length = bytes.length := by
  induction bytes generalizing step with
  | nil => rfl
  | cons b bytes ih =>
    rw [walk] at alive ⊢
    cases dead : (step b).isDead with
    | true => simp [dead] at alive
    | false =>
      rw [dead, if_neg Bool.false_ne_true] at alive
      simp only [Bool.false_eq_true, if_false, List.length_cons, ih alive]

end

def alone (a : Automaton) (first : UInt8 → PositionSet) (bytes : List UInt8) : TokenWalk :=
  let found := a.walk first bytes
  ⟨bytes, found.1, if found.2 then none else some (found.1.length + 1)⟩

theorem isNone_dead_alone (first : UInt8 → PositionSet) (bytes : List UInt8) :
    (a.alone first bytes).dead.isNone = (a.walk first bytes).2 := by
  rw [alone]
  cases (a.walk first bytes).2 <;> rfl

/-- Behind what two tokens share, the walk through one of them goes on from where the walk through the other was. -/
theorem walk_eq_of_shared {first : UInt8 → PositionSet} {last bytes : List UInt8}
    (few : sharedPrefixLength last bytes ≤ (a.walk first last).1.length) :
    a.walk first bytes =
      let known := (a.walk first last).1.take (sharedPrefixLength last bytes)
      let onward := a.walk (a.stepBehind first known) (bytes.drop known.length)
      (known ++ onward.1, onward.2) := by
  have begun := walk_take few
  dsimp only
  rw [List.length_take_of_le few]
  conv_lhs => rw [← List.take_append_drop (sharedPrefixLength last bytes) bytes, take_sharedPrefixLength]
  rw [walk_append (by rw [begun]), begun]

theorem walk_eq_of_shared_dead {first : UInt8 → PositionSet} {last bytes : List UInt8}
    (dead : (a.walk first last).2 = false)
    (many : (a.walk first last).1.length < sharedPrefixLength last bytes) :
    a.walk first bytes = a.walk first last := by
  have stuck := walk_take_dead dead many
  conv_lhs => rw [← List.take_append_drop (sharedPrefixLength last bytes) bytes, take_sharedPrefixLength]
  rw [walk_append_dead (by rw [stuck, dead]), stuck]

/-- The token before makes no difference. -/
theorem tryToken_alone (first : UInt8 → PositionSet) (last bytes : List UInt8) :
    a.tryToken first (a.alone first last) bytes = a.alone first bytes := by
  cases alive : (a.walk first last).2 with
  | true =>
    have few : sharedPrefixLength last bytes ≤ (a.walk first last).1.length := by
      rw [length_walk alive]
      exact sharedPrefixLength_le last bytes
    simp only [tryToken, alone, alive, walk_eq_of_shared few, if_true, Option.any_none, Bool.false_eq_true, if_false]
  | false =>
    by_cases few : sharedPrefixLength last bytes ≤ (a.walk first last).1.length
    · have going : ¬(a.walk first last).1.length + 1 ≤ sharedPrefixLength last bytes := by omega
      simp only [tryToken, alone, alive, walk_eq_of_shared few, Bool.false_eq_true, if_false, Option.any_some,
        decide_eq_true_eq, going]
    · have many := Nat.lt_of_not_le few
      simp only [tryToken, alone, alive, walk_eq_of_shared_dead alive many, Bool.false_eq_true, if_false,
        Option.any_some, decide_eq_true_eq, Nat.succ_le_of_lt many, if_true]

theorem allowTokens_eq (dropSpace : Bool) (set : PositionSet) (mask : TokenMask)
    (tokens : List RegularToken) :
    a.allowTokens dropSpace set mask tokens =
      ((tokens.filter fun token => (a.walk (a.stepFirst dropSpace (a.firstBytes set) set) token.bytes).2).map
        RegularToken.id).foldl TokenMask.allow mask := by
  unfold allowTokens
  dsimp only
  generalize a.stepFirst dropSpace (a.firstBytes set) set = first
  have start : TokenWalk.start = a.alone first [] := rfl
  rw [start]
  generalize ([] : List UInt8) = last
  induction tokens generalizing last mask with
  | nil => rfl
  | cons token rest ih =>
    rw [List.foldl_cons, tryToken_alone]
    apply (ih _ _).trans
    rw [isNone_dead_alone, List.filter_cons]
    cases (a.walk first token.bytes).2 <;> rfl

theorem walk_eq_stepBytes? (set : PositionSet) (bytes : List UInt8) :
    (a.walk (a.step set) bytes).2 = (a.stepBytes? set bytes).isSome := by
  induction bytes generalizing set with
  | nil => rfl
  | cons b bytes ih =>
    rw [walk, stepBytes?]
    cases dead : (a.step set b).isDead with
    | true => simp
    | false => simp [ih]

theorem walk_eq_withoutSpace {set : PositionSet} (alive : set.isDead = false) (dropSpace : Bool)
    (bytes : List UInt8) :
    (a.walk (a.stepFirst dropSpace (a.firstBytes set) set) bytes).2 =
      (a.stepBytes? set (if dropSpace then Matcher.withoutSpace bytes else bytes)).isSome := by
  rw [funext (stepFirst_firstBytes dropSpace set)]
  cases dropSpace with
  | false => exact walk_eq_stepBytes? set bytes
  | true =>
    cases bytes with
    | nil => rfl
    | cons b bytes =>
      by_cases space : b = 0x20
      · subst space
        rw [walk]
        simp only [beq_self_eq_true, Bool.and_self, if_true, alive, Bool.false_eq_true, if_false, walk_eq_stepBytes?]
        rfl
      · have kept : Matcher.withoutSpace (b :: bytes) = b :: bytes := by
          unfold Matcher.withoutSpace
          split
          next rest same => exact absurd (List.cons.inj same).1 space
          next => rfl
        rw [if_pos rfl, kept, ← walk_eq_stepBytes?, walk, walk]
        simp [space]

end Automaton

namespace Constraint

/-- Whether a token is accepted at some positions. -/
def Allows (c : Constraint) (set : PositionSet) (dropSpace : Bool) (i : Nat) : Prop :=
  if c.stopTokens.contains i = true then set.accepting = true
  else ∃ e, c.vocabulary.entries[i]? = some e ∧ e.special = false ∧
    (c.automaton.stepBytes? set
      (if dropSpace then Matcher.withoutSpace e.decoded else e.decoded)).isSome = true

/-- A mask that has set exactly the bits of the accepted tokens that masks have a place for. -/
def Correct (c : Constraint) (set : PositionSet) (dropSpace : Bool) (mask : TokenMask) : Prop :=
  ∀ i, TokenMask.bit mask.words.toList i = true ↔
    i < min c.maskSize c.vocabulary.size ∧ c.Allows set dropSpace i

def Sorted (c : Constraint) : Prop :=
  ∀ token, token ∈ c.vocabulary.sorted ↔
    ∃ e, c.vocabulary.entries[token.id]? = some e ∧ e.special = false ∧ e.decoded = token.bytes

end Constraint

namespace Matcher

variable {m : Matcher}

theorem isSome_acceptToken? (going : m.current.stopped = false) (i : Nat) :
    (m.acceptToken? i).1.isSome = true ↔ m.constraint.Allows m.current.positions m.dropsSpace i := by
  rw [acceptToken?, going, if_neg Bool.false_ne_true, Constraint.Allows]
  by_cases stop : m.constraint.stopTokens.contains i = true
  · rw [if_pos stop, if_pos stop]
    cases m.current.positions.accepting <;> simp
  · rw [if_neg stop, if_neg stop]
    cases found : m.constraint.vocabulary.entries[i]? with
    | none => simp
    | some e =>
      cases regular : e.special with
      | true => simp [regular]
      | false => simp [regular, advance?]

theorem bit_computeMask (m : Matcher) (i : Nat) :
    TokenMask.bit m.computeMask.1.words.toList i = true ↔
      i < m.constraint.maskSize ∧ (i ∈ m.stopCandidates ∨
        ∃ token ∈ m.candidates, token.id = i ∧
          (m.constraint.automaton.walk (m.constraint.automaton.stepFirst m.dropsSpace
            (m.constraint.automaton.firstBytes m.current.positions) m.current.positions) token.bytes).2 = true) := by
  unfold computeMask
  dsimp only
  rw [Automaton.allowTokens_eq, ← List.foldl_append, TokenMask.bit_foldl_allow, TokenMask.bit_none]
  simp only [Bool.false_eq_true, false_or, List.mem_append, List.mem_map, List.mem_filter, TokenMask.none]
  rw [and_comm, or_comm]
  simp only [and_left_comm, and_comm]

theorem mem_stopCandidates {i : Nat} :
    i ∈ m.stopCandidates ↔ m.current.positions.accepting = true ∧
      m.constraint.stopTokens.contains i = true ∧ i < m.maskBound := by
  rw [stopCandidates]
  cases m.current.positions.accepting <;> simp

theorem mem_candidates {token : RegularToken} :
    token ∈ m.candidates ↔ token ∈ m.constraint.vocabulary.sorted ∧ token.id < m.maskBound ∧
      m.constraint.stopTokens.contains token.id = false := by
  simp [candidates]

theorem correct_computeMask (sorted : m.constraint.Sorted) (alive : m.current.positions.isDead = false) :
    m.constraint.Correct m.current.positions m.dropsSpace m.computeMask.1 := by
  intro i
  rw [bit_computeMask, Constraint.Allows, mem_stopCandidates]
  simp only [mem_candidates, Automaton.walk_eq_withoutSpace alive]
  constructor
  · intro h
    rcases h with ⟨_, ⟨matched, stop, bound⟩ | ⟨token, ⟨member, bound, regular⟩, rfl, survives⟩⟩
    · rw [if_pos stop]
      exact ⟨bound, matched⟩
    · obtain ⟨e, found, plain, decoded⟩ := (sorted token).mp member
      rw [if_neg (Bool.eq_false_iff.mp regular)]
      exact ⟨bound, e, found, plain, decoded ▸ survives⟩
  · intro h
    obtain ⟨bound, allowed⟩ := h
    have place : i < m.constraint.maskSize := Nat.lt_of_lt_of_le bound (Nat.min_le_left _ _)
    refine ⟨place, ?_⟩
    split at allowed
    next stop => exact .inl ⟨allowed, stop, bound⟩
    next regular =>
      obtain ⟨e, found, plain, survives⟩ := allowed
      have member : ⟨i, e.decoded⟩ ∈ m.constraint.vocabulary.sorted :=
        (sorted ⟨i, e.decoded⟩).mpr ⟨e, found, plain, rfl⟩
      exact .inr ⟨⟨i, e.decoded⟩, ⟨member, bound, Bool.eq_false_iff.mpr regular⟩, rfl, survives⟩

end Matcher

theorem Matcher.exists_mask {m : Matcher} (going : m.current.stopped = false) :
    ∃ mask after events, m.mask = .ok (mask, after, events) := by
  rw [Matcher.mask, going, if_neg Bool.false_ne_true]
  split
  next =>
    split
    next => exact ⟨_, _, _, rfl⟩
    next => exact ⟨_, _, _, rfl⟩
  next => exact ⟨_, _, _, rfl⟩

namespace Matcher

variable {m : Matcher}

theorem findMask?_eq_mask (fits : m.constraint.maskSize + 31 < TokenMask.sizeLimit) : m.findMask? = some m.mask := by
  rw [findMask?, TokenMask.wordCount?_eq_some fits, Option.map_some, ite_self]

theorem findMask?_eq_none_iff : m.findMask? = none ↔
    m.current.stopped = false ∧ m.hasKept = false ∧ TokenMask.sizeLimit ≤ m.constraint.maskSize + 31 := by
  rcases Nat.lt_or_ge (m.constraint.maskSize + 31) TokenMask.sizeLimit with fits | large
  · rw [findMask?_eq_mask fits]
    simp [fits]
  · rw [findMask?, TokenMask.wordCount?_eq_none large]
    simp [large]

end Matcher

/-- No remembered state is dead, and all kept masks are correct. -/
structure Matcher.Masks (m : Matcher) : Prop where
  sorted : m.constraint.Sorted
  initial : m.constraint.automaton.initial.isDead = false
  alive : ∀ progress ∈ m.current :: m.history, progress.positions.isDead = false
  cache : ∀ entry ∈ m.cache, m.constraint.Correct entry.1.1 entry.1.2 entry.2

namespace Matcher.Masks

variable {m after : Matcher}

theorem current (masks : m.Masks) : m.current.positions.isDead = false :=
  masks.alive m.current List.mem_cons_self

theorem carry (masks : m.Masks) (constraint : after.constraint = m.constraint)
    (alive : ∀ progress ∈ after.current :: after.history, progress.positions.isDead = false)
    (cache : ∀ entry ∈ after.cache, m.constraint.Correct entry.1.1 entry.1.2 entry.2) : after.Masks := by
  rw [← constraint] at cache
  refine ⟨?_, ?_, alive, cache⟩
  · rw [constraint]
    exact masks.sorted
  · rw [constraint]
    exact masks.initial

theorem accept {inputs : List Input} (masks : m.Masks) {input : Input}
    (accepted : m.Accepted inputs input after) : after.Masks := by
  apply masks.carry accepted.constraint (Alive.accept masks.alive accepted)
  rw [accepted.cache]
  exact masks.cache

theorem rollback {count : Nat} {events : List Event} (masks : m.Masks)
    (taken : m.rollback count = .ok (after, events)) : after.Masks := by
  obtain ⟨_, constraint, cache, _⟩ := rollback_eq_ok taken
  apply masks.carry constraint (Alive.rollback masks.alive taken)
  rw [cache]
  exact masks.cache

theorem correct (masks : m.Masks) {mask : TokenMask} (masked : m.Masked mask after) :
    m.constraint.Correct m.current.positions m.dropsSpace mask := by
  rcases masked.source with rfl | known
  · exact correct_computeMask masks.sorted masks.current
  · obtain ⟨before, rest, split, _⟩ := List.lookup_eq_some_iff.mp known
    exact masks.cache ((m.current.positions, m.dropsSpace), mask) (by simp [split])

theorem mask (masks : m.Masks) {mask : TokenMask} (masked : m.Masked mask after) : after.Masks := by
  apply masks.carry masked.constraint (Alive.mask masks.alive masked)
  intro entry member
  rcases masked.cache entry member with old | rfl
  · exact masks.cache entry old
  · exact correct_computeMask masks.sorted masks.current

theorem persists (c : Constraint) : Persists c Masks where
  accept masks accepted := masks.accept accepted
  rollback masks taken := masks.rollback taken
  reset _ masks := ⟨masks.sorted, masks.initial, (Alive.persists masks.initial).reset rfl masks.alive, masks.cache⟩
  mask masks masked := masks.mask masked

end Matcher.Masks

theorem Matcher.Fresh.masks {grammar : Grammar} {tokens : List (List UInt8)} {encoding : TokenEncoding}
    {leadingSpace : Bool} {vocabulary : Vocabulary} {settings : MatcherSettings} {m : Matcher}
    (fresh : Fresh grammar vocabulary settings m) (alive : grammar.automaton.initial.isDead = false)
    (built : (Vocabulary.ofTokens tokens encoding leadingSpace).1 = .ok vocabulary) : m.Masks := by
  have initial : m.constraint.automaton.initial.isDead = false := by rwa [fresh.automaton]
  have sorted : m.constraint.Sorted := by
    intro token
    rw [fresh.vocabulary]
    exact Vocabulary.mem_sorted built
  exact ⟨sorted, initial, fresh.alive alive, by simp [fresh.cache]⟩

/-- Whatever is done with a matcher whose masks have a size that can be rounded up to words, its mask has set the bits
of those tokens that the matcher accepts and that the mask has a place for, and no other bit, unless a stop token was
accepted. -/
theorem Session.mask_agrees {grammar : Grammar} (alive : grammar.automaton.initial.isDead = false)
    {tokens : List (List UInt8)} {encoding : TokenEncoding} {leadingSpace : Bool} {vocabulary : Vocabulary}
    (built : (Vocabulary.create tokens encoding leadingSpace).1 = .ok vocabulary)
    {settings : MatcherSettings} (fits : ∀ size ∈ settings.maskSize, size + 31 < 2 ^ 64) {start : Matcher}
    (created : Matcher.create grammar vocabulary settings = .ok start) (operations : List Operation)
    (going : (Session.run ⟨start, []⟩ operations).matcher.current.stopped = false) :
    let m := (Session.run ⟨start, []⟩ operations).matcher
    ∃ mask after events, m.findMask? = some (.ok (mask, after, events)) ∧
      ∀ i, TokenMask.bit mask.words.toList i = true ↔
        i < min (settings.maskSize.getD vocabulary.size) vocabulary.size ∧
          (m.acceptToken? i).1.isSome = true := by
  intro m
  have fresh := Matcher.fresh_of_create created
  have sound : Session.Sound start.constraint (Session.run ⟨start, []⟩ operations) :=
    fresh.sound.run operations
  have readable := (Vocabulary.create_eq_ok_iff.mp built).2
  have masks : m.Masks := fresh.sound.persists_run (Matcher.Masks.persists _) (fresh.masks alive readable) operations
  have size : m.constraint.maskSize = settings.maskSize.getD vocabulary.size := by
    rw [sound.constraint, fresh.maskSize]
  have counted : m.constraint.maskSize + 31 < TokenMask.sizeLimit := by
    rw [size]
    cases given : settings.maskSize with
    | none => exact Nat.lt_of_le_of_lt (Nat.add_le_add_right (Vocabulary.size_le_of_create built) 31) (by decide)
    | some size => exact fits size given
  obtain ⟨mask, after, events, made⟩ := Matcher.exists_mask going
  refine ⟨mask, after, events, ?_, fun i => ?_⟩
  · rw [Matcher.findMask?_eq_mask counted, made]
  · have correct := masks.correct (Matcher.masked_of_mask made).2 i
    rw [Matcher.isSome_acceptToken? going]
    rwa [sound.constraint, fresh.maskSize, fresh.vocabulary, ← sound.constraint] at correct

theorem Session.mask_agrees_letters :
    Grammar.letters.automaton.initial.isDead = false ∧ ∃ vocabulary start,
      (Vocabulary.create [[98], [97], [60, 47, 115, 62]] .raw true).1 = .ok vocabulary ∧
      (∀ size ∈ some 40, size + 31 < 2 ^ 64) ∧
      Matcher.create Grammar.letters vocabulary
        { stopTokens := some [2], maskSize := some 40, maxRollback := 2 } = .ok start ∧
      let m := (Session.run ⟨start, []⟩
        [.accept (.bytes [98]), .mask, .accept (.token 1), .mask, .rollback 1]).matcher
      m.current.stopped = false ∧ ∃ mask after events, m.findMask? = some (.ok (mask, after, events)) ∧
        ∀ i, TokenMask.bit mask.words.toList i = true ↔
          i < min 40 vocabulary.size ∧ (m.acceptToken? i).1.isSome = true := by
  have alive : Grammar.letters.automaton.initial.isDead = false := by cbv
  have fits : ∀ size ∈ some 40, size + 31 < 2 ^ 64 := by simp
  obtain ⟨vocabulary, start, built, created, going⟩ : ∃ vocabulary start,
      (Vocabulary.create [[98], [97], [60, 47, 115, 62]] .raw true).1 = .ok vocabulary ∧
      Matcher.create Grammar.letters vocabulary
        { stopTokens := some [2], maskSize := some 40, maxRollback := 2 } = .ok start ∧
      (Session.run ⟨start, []⟩ [.accept (.bytes [98]), .mask, .accept (.token 1), .mask,
        .rollback 1]).matcher.current.stopped = false := ⟨_, _, rfl, rfl, by with_unfolding_all decide⟩
  exact ⟨alive, vocabulary, start, built, fits, created, going,
    Session.mask_agrees alive built fits created _ going⟩

/-- The words of a mask of the greatest size cannot be counted: although a token is accepted, there is no mask. -/
theorem Session.maskless_letters :
    Grammar.letters.automaton.initial.isDead = false ∧ ∃ vocabulary start,
      (Vocabulary.create [[98], [97], [60, 47, 115, 62]] .raw true).1 = .ok vocabulary ∧
      Matcher.create Grammar.letters vocabulary { maskSize := some (2 ^ 64 - 1) } = .ok start ∧
      let m := (Session.run ⟨start, []⟩ []).matcher
      m.current.stopped = false ∧ 0 < min (2 ^ 64 - 1) vocabulary.size ∧ (m.acceptToken? 0).1.isSome = true ∧
        m.findMask? = none := by
  have alive : Grammar.letters.automaton.initial.isDead = false := by cbv
  obtain ⟨vocabulary, start, built, created, going, place, accepted, missing⟩ : ∃ vocabulary start,
      (Vocabulary.create [[98], [97], [60, 47, 115, 62]] .raw true).1 = .ok vocabulary ∧
      Matcher.create Grammar.letters vocabulary { maskSize := some (2 ^ 64 - 1) } = .ok start ∧
      let m := (Session.run ⟨start, []⟩ []).matcher
      m.current.stopped = false ∧ 0 < min (2 ^ 64 - 1) vocabulary.size ∧ (m.acceptToken? 0).1.isSome = true ∧
        m.findMask?.isNone = true := ⟨_, _, rfl, rfl, by with_unfolding_all decide⟩
  exact ⟨alive, vocabulary, start, built, created, going, place, accepted, Option.isNone_iff_eq_none.mp missing⟩

end GuidedDecoding
