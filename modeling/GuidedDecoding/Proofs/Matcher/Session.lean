import Mathlib
import GuidedDecoding.Matcher.JumpForward
import GuidedDecoding.Matcher.Mask
import GuidedDecoding.Proofs.Automaton.Acceptance
import GuidedDecoding.Proofs.Grammar.Compilation

namespace GuidedDecoding

inductive Input where
  | token (id : Nat)
  | bytes (bytes : List UInt8)
  deriving Repr, DecidableEq

inductive Operation where
  | accept (input : Input)
  | rollback (count : Nat)
  | reset
  | mask
  | jumpForward
  deriving Repr, DecidableEq

/-- The accepted inputs, the latest first, that the operation leaves. -/
def Operation.keep (inputs : List Input) : Operation → List Input
  | accept input => input :: inputs
  | rollback count => inputs.drop count
  | reset => []
  | mask => inputs
  | jumpForward => inputs

namespace Matcher

def accept? (m : Matcher) : Input → Option Matcher
  | .token id => (m.acceptToken? id).1
  | .bytes bytes => m.acceptBytes? bytes

def perform? (m : Matcher) : Operation → Option Matcher
  | .accept input => m.accept? input
  | .rollback count => (m.rollback count).toOption.map Prod.fst
  | .reset => some m.reset.1
  | .mask => m.mask.toOption.map fun (_, m, _) => m
  | .jumpForward => some m

end Matcher

/-- A matcher together with the accepted inputs that were not taken back, the latest first. -/
structure Session where
  matcher : Matcher
  inputs : List Input

namespace Session

def step (session : Session) (operation : Operation) : Session :=
  match session.matcher.perform? operation with
  | some m => ⟨m, operation.keep session.inputs⟩
  | none => session

def run (session : Session) (operations : List Operation) : Session := operations.foldl step session

end Session

namespace Constraint

variable (c : Constraint)

def isStop : Input → Bool
  | .token id => c.stopTokens.contains id
  | .bytes _ => false

def inputText (first : Bool) : Input → List UInt8
  | .bytes bytes => bytes
  | .token id =>
    if c.stopTokens.contains id then []
    else
      let decoded := (c.vocabulary.decoded? id).getD []
      if first && c.vocabulary.leadingSpace then Matcher.withoutSpace decoded else decoded

def text : List Input → List UInt8
  | [] => []
  | input :: earlier => text earlier ++ c.inputText earlier.isEmpty input

def progress (inputs : List Input) : Progress :=
  ⟨(c.text inputs).foldl c.automaton.step c.automaton.initial, inputs.any c.isStop, inputs.length⟩

def states : List Input → List Progress
  | [] => [c.progress []]
  | input :: earlier => c.progress (input :: earlier) :: states earlier

/-- Nothing comes after a stop token, and a stop token comes only where the main rule is matched. -/
def Legal : List Input → Prop
  | [] => True
  | input :: earlier => Legal earlier ∧ (c.progress earlier).stopped = false ∧
    (c.isStop input = true → (c.progress earlier).positions.accepting = true)

variable {c}

theorem states_eq_cons (inputs : List Input) : ∃ rest, c.states inputs = c.progress inputs :: rest := by
  cases inputs with
  | nil => exact ⟨[], rfl⟩
  | cons input earlier => exact ⟨c.states earlier, rfl⟩

theorem length_states (inputs : List Input) : (c.states inputs).length = inputs.length + 1 := by
  induction inputs with
  | nil => rfl
  | cons input earlier ih => rw [states, List.length_cons, ih, List.length_cons]

theorem drop_states {inputs : List Input} {count : Nat} (le : count ≤ inputs.length) :
    (c.states inputs).drop count = c.states (inputs.drop count) := by
  induction count generalizing inputs with
  | zero => rfl
  | succ count ih =>
    cases inputs with
    | nil => simp at le
    | cons input earlier => exact ih (Nat.le_of_succ_le_succ le)

theorem Legal.drop {inputs : List Input} (legal : c.Legal inputs) (count : Nat) :
    c.Legal (inputs.drop count) := by
  induction count generalizing inputs with
  | zero => exact legal
  | succ count ih =>
    cases inputs with
    | nil => exact legal
    | cons input earlier => exact ih legal.1

theorem text_stop {input : Input} (stop : c.isStop input = true) (earlier : List Input) :
    c.text (input :: earlier) = c.text earlier := by
  cases input with
  | bytes bytes => cases stop
  | token id =>
    change c.stopTokens.contains id = true at stop
    rw [text, inputText, if_pos stop, List.append_nil]

theorem Legal.accepting {inputs : List Input} (legal : c.Legal inputs)
    (stopped : (c.progress inputs).stopped = true) : (c.progress inputs).positions.accepting = true := by
  cases inputs with
  | nil => cases stopped
  | cons input earlier =>
    obtain ⟨_, going, matched⟩ := legal
    have stop : c.isStop input = true := by
      change (c.isStop input || earlier.any c.isStop) = true at stopped
      change earlier.any c.isStop = false at going
      rwa [going, Bool.or_false] at stopped
    unfold progress
    rw [text_stop stop]
    exact matched stop

end Constraint

theorem Automaton.stepBytes?_eq_some {a : Automaton} {set after : PositionSet} {bytes : List UInt8}
    (stepped : a.stepBytes? set bytes = some after) : after = bytes.foldl a.step set := by
  induction bytes generalizing set with
  | nil => exact (Option.some.inj stepped).symm
  | cons b bytes ih =>
    rw [stepBytes?] at stepped
    split at stepped
    next => cases stepped
    next => exact ih stepped

theorem Automaton.isDead_of_stepBytes? {a : Automaton} {set after : PositionSet} {bytes : List UInt8}
    (alive : set.isDead = false) (stepped : a.stepBytes? set bytes = some after) :
    after.isDead = false := by
  induction bytes generalizing set with
  | nil =>
    cases stepped
    exact alive
  | cons b bytes ih =>
    rw [stepBytes?] at stepped
    split at stepped
    next => cases stepped
    next lives => exact ih (Bool.eq_false_iff.mpr lives) stepped

namespace Matcher

variable {m after : Matcher} {inputs : List Input}

/-- What an accepted input does, seen from the state before it. -/
structure Accepted (m : Matcher) (inputs : List Input) (input : Input) (after : Matcher) : Prop where
  constraint : after.constraint = m.constraint
  cache : after.cache = m.cache
  current : after.current = m.constraint.progress (input :: inputs)
  history : after.history = (m.current :: m.history).take m.constraint.maxRollback
  going : m.current.stopped = false
  matched : m.constraint.isStop input = true → m.current.positions.accepting = true
  alive : m.current.positions.isDead = false → after.current.positions.isDead = false

theorem accepted_of_advance? (now : m.current = m.constraint.progress inputs) {input : Input}
    {bytes : List UInt8} (regular : m.constraint.isStop input = false)
    (same : m.constraint.inputText inputs.isEmpty input = bytes) (going : m.current.stopped = false)
    (advanced : m.advance? bytes = some after) : m.Accepted inputs input after := by
  obtain ⟨set, stepped, rfl⟩ := Option.map_eq_some_iff.mp advanced
  have current : (m.proceed set m.current.stopped).current = m.constraint.progress (input :: inputs) := by
    rw [Automaton.stepBytes?_eq_some stepped]
    simp only [proceed, now, Constraint.progress, Constraint.text, same, List.foldl_append, List.any_cons,
      regular, Bool.false_or, List.length_cons]
  have matched : m.constraint.isStop input = true → m.current.positions.accepting = true := by
    intro stop
    rw [regular] at stop
    cases stop
  exact ⟨rfl, rfl, current, rfl, going, matched, fun alive => Automaton.isDead_of_stepBytes? alive stepped⟩

theorem inputText_token (now : m.current = m.constraint.progress inputs) {id : Nat} {entry : VocabularyEntry}
    (regular : m.constraint.stopTokens.contains id = false)
    (found : m.constraint.vocabulary.entries[id]? = some entry) :
    m.constraint.inputText inputs.isEmpty (.token id) =
      if m.dropsSpace then withoutSpace entry.decoded else entry.decoded := by
  have first : m.dropsSpace = (inputs.isEmpty && m.constraint.vocabulary.leadingSpace) := by
    rw [dropsSpace, now]
    cases inputs <;> rfl
  rw [Constraint.inputText, regular, if_neg Bool.false_ne_true, first, Vocabulary.decoded?, found]
  rfl

theorem accepted_of_accept? (now : m.current = m.constraint.progress inputs) {input : Input}
    (accepted : m.accept? input = some after) : m.Accepted inputs input after := by
  cases input with
  | bytes bytes =>
    change m.acceptBytes? bytes = some after at accepted
    rw [acceptBytes?] at accepted
    split at accepted
    next => cases accepted
    next going => exact accepted_of_advance? now rfl rfl (Bool.eq_false_iff.mpr going) accepted
  | token id =>
    change (m.acceptToken? id).1 = some after at accepted
    rw [acceptToken?] at accepted
    split at accepted
    next => cases accepted
    next going =>
      have going := Bool.eq_false_iff.mpr going
      split at accepted
      next stop =>
        split at accepted
        next matched =>
          cases accepted
          have stop : m.constraint.isStop (.token id) = true := stop
          have current : (m.proceed m.current.positions true).current =
              m.constraint.progress (.token id :: inputs) := by
            simp only [proceed, now, Constraint.progress, Constraint.text_stop stop, List.any_cons, stop,
              Bool.true_or, List.length_cons]
          exact ⟨rfl, rfl, current, rfl, going, fun _ => matched, fun alive => alive⟩
        next => cases accepted
      next regular =>
        have regular : m.constraint.stopTokens.contains id = false := Bool.eq_false_iff.mpr regular
        split at accepted
        next => cases accepted
        next entry found =>
          split at accepted
          next => cases accepted
          next =>
            exact accepted_of_advance? now regular (inputText_token now regular found) going accepted

theorem rollback_eq_ok {count : Nat} {events : List Event} (taken : m.rollback count = .ok (after, events)) :
    count ≤ m.history.length ∧ after.constraint = m.constraint ∧ after.cache = m.cache ∧
      after.current :: after.history = (m.current :: m.history).drop count := by
  unfold Matcher.rollback at taken
  split at taken
  next => cases taken
  next allowed =>
    have known : count ≤ m.history.length := by omega
    cases count with
    | zero =>
      cases taken
      exact ⟨known, rfl, rfl, rfl⟩
    | succ count =>
      cases remembered : (m.current :: m.history).drop (count + 1) with
      | nil =>
        have length := List.drop_eq_nil_iff.mp remembered
        rw [List.length_cons] at length
        omega
      | cons progress history =>
        rw [remembered] at taken
        cases taken
        exact ⟨known, rfl, rfl, rfl⟩

structure Masked (m : Matcher) (mask : TokenMask) (after : Matcher) : Prop where
  constraint : after.constraint = m.constraint
  current : after.current = m.current
  history : after.history = m.history
  source : mask = m.computeMask.1 ∨ m.cache.lookup (m.current.positions, m.dropsSpace) = some mask
  cache : ∀ entry ∈ after.cache, entry ∈ m.cache ∨
    entry = ((m.current.positions, m.dropsSpace), m.computeMask.1)

theorem masked_store (m : Matcher) : Masked m m.computeMask.1 (m.store m.computeMask.1).1 := by
  unfold store
  dsimp only
  split
  next => exact ⟨rfl, rfl, rfl, .inl rfl, fun entry => .inl⟩
  next =>
    split
    next => exact ⟨rfl, rfl, rfl, .inl rfl, fun entry member => .inr (List.mem_singleton.mp member)⟩
    next => exact ⟨rfl, rfl, rfl, .inl rfl, fun entry member => (List.mem_cons.mp member).symm⟩

theorem masked_of_mask {mask : TokenMask} {events : List Event}
    (made : m.mask = .ok (mask, after, events)) : m.current.stopped = false ∧ Masked m mask after := by
  rw [Matcher.mask] at made
  split at made
  next => cases made
  next going =>
    refine ⟨Bool.eq_false_iff.mpr going, ?_⟩
    split at made
    next =>
      split at made
      next known =>
        cases made
        exact ⟨rfl, rfl, rfl, .inr known, fun entry => .inl⟩
      next =>
        cases made
        exact masked_store m
    next =>
      cases made
      exact ⟨rfl, rfl, rfl, .inl rfl, fun entry => .inl⟩

inductive Performed (m : Matcher) : Operation → Matcher → Prop where
  | accept {input : Input} {after : Matcher} (accepted : m.accept? input = some after) :
    Performed m (.accept input) after
  | rollback {count : Nat} {after : Matcher} {events : List Event}
    (taken : m.rollback count = .ok (after, events)) : Performed m (.rollback count) after
  | reset : Performed m .reset m.reset.1
  | mask {mask : TokenMask} {after : Matcher} {events : List Event}
    (made : m.mask = .ok (mask, after, events)) : Performed m .mask after
  | jumpForward : Performed m .jumpForward m

theorem performed_of_perform? {operation : Operation} (performed : m.perform? operation = some after) :
    m.Performed operation after := by
  cases operation with
  | accept input => exact .accept performed
  | rollback count =>
    change (m.rollback count).toOption.map Prod.fst = some after at performed
    cases taken : m.rollback count with
    | error e =>
      rw [taken] at performed
      cases performed
    | ok result =>
      rw [taken] at performed
      cases performed
      exact .rollback taken
  | reset =>
    cases performed
    exact .reset
  | mask =>
    change m.mask.toOption.map _ = some after at performed
    cases made : m.mask with
    | error e =>
      rw [made] at performed
      cases performed
    | ok result =>
      rw [made] at performed
      cases performed
      exact .mask made
  | jumpForward =>
    cases performed
    exact .jumpForward

end Matcher

def Matcher.Alive (m : Matcher) : Prop :=
  ∀ progress ∈ m.current :: m.history, progress.positions.isDead = false

namespace Matcher.Alive

variable {m after : Matcher} (alive : m.Alive)
include alive

theorem current : m.current.positions.isDead = false := alive m.current List.mem_cons_self

theorem accept {inputs : List Input} {input : Input} (accepted : m.Accepted inputs input after) : after.Alive := by
  intro progress member
  rcases List.mem_cons.mp member with rfl | member
  · exact accepted.alive alive.current
  · rw [accepted.history] at member
    exact alive progress (List.mem_of_mem_take member)

theorem rollback {count : Nat} {events : List Event} (taken : m.rollback count = .ok (after, events)) :
    after.Alive := by
  intro progress member
  rw [(rollback_eq_ok taken).2.2.2] at member
  exact alive progress (List.mem_of_mem_drop member)

theorem mask {mask : TokenMask} (masked : m.Masked mask after) : after.Alive := by
  rw [Alive, masked.current, masked.history]
  exact alive

end Matcher.Alive

/-- Whatever is done to a matcher under a constraint, a property of it remains. -/
structure Matcher.Persists (c : Constraint) (P : Matcher → Prop) : Prop where
  accept : ∀ {m after : Matcher} {inputs : List Input} {input : Input}, P m → m.Accepted inputs input after → P after
  rollback : ∀ {m after : Matcher} {count : Nat} {events : List Event}, P m →
    m.rollback count = .ok (after, events) → P after
  reset : ∀ {m : Matcher}, m.constraint = c → P m → P m.reset.1
  mask : ∀ {m after : Matcher} {mask : TokenMask}, P m → m.Masked mask after → P after

theorem Matcher.Alive.persists {c : Constraint} (initial : c.automaton.initial.isDead = false) :
    Persists c Alive where
  accept alive accepted := alive.accept accepted
  rollback alive taken := alive.rollback taken
  reset := by
    intro m same _ progress member
    obtain rfl := List.mem_singleton.mp member
    change m.constraint.automaton.initial.isDead = false
    rwa [same]
  mask alive masked := alive.mask masked

/-- The matcher is in the state after the inputs, and remembers states after fewer of them. -/
structure Session.Sound (c : Constraint) (session : Session) : Prop where
  constraint : session.matcher.constraint = c
  legal : c.Legal session.inputs
  states : session.matcher.current :: session.matcher.history <+: c.states session.inputs

namespace Session.Sound

variable {c : Constraint} {session : Session}

theorem current (sound : session.Sound c) : session.matcher.current = c.progress session.inputs := by
  obtain ⟨rest, found⟩ := Constraint.states_eq_cons (c := c) session.inputs
  have states := sound.states
  rw [found] at states
  exact (List.cons_prefix_cons.mp states).1

theorem positions (sound : session.Sound c) : session.matcher.current.positions =
    (c.text session.inputs).foldl c.automaton.step c.automaton.initial := by
  rw [sound.current]
  rfl

theorem stopped_iff (sound : session.Sound c) :
    session.matcher.current.stopped = true ↔ ∃ input ∈ session.inputs, c.isStop input = true := by
  rw [sound.current]
  exact List.any_eq_true

theorem accepting (sound : session.Sound c) (stopped : session.matcher.current.stopped = true) :
    session.matcher.current.positions.accepting = true := by
  have now := sound.current
  rw [now] at stopped ⊢
  exact sound.legal.accepting stopped

theorem accept {input : Input} {after : Matcher} (sound : session.Sound c)
    (accepted : session.matcher.accept? input = some after) :
    Sound c ⟨after, input :: session.inputs⟩ := by
  obtain ⟨rfl, legal, states⟩ := sound
  have now := current ⟨rfl, legal, states⟩
  have does := Matcher.accepted_of_accept? now accepted
  refine ⟨does.constraint, ⟨legal, ?_, ?_⟩, ?_⟩
  · rw [← now]
    exact does.going
  · rw [← now]
    exact does.matched
  · have kept := (List.take_prefix session.matcher.constraint.maxRollback _).trans states
    rw [does.current, does.history]
    exact List.cons_prefix_cons.mpr ⟨rfl, kept⟩

theorem rollback {count : Nat} {after : Matcher} {events : List Event} (sound : session.Sound c)
    (taken : session.matcher.rollback count = .ok (after, events)) :
    Sound c ⟨after, session.inputs.drop count⟩ := by
  obtain ⟨known, constraint, _, states⟩ := Matcher.rollback_eq_ok taken
  have length := sound.states.length_le
  rw [List.length_cons, Constraint.length_states] at length
  have enough : count ≤ session.inputs.length := Nat.le_trans known (Nat.le_of_succ_le_succ length)
  refine ⟨constraint.trans sound.constraint, sound.legal.drop count, ?_⟩
  rw [states, ← Constraint.drop_states enough]
  exact sound.states.drop count

theorem step (sound : session.Sound c) (operation : Operation) : (session.step operation).Sound c := by
  unfold Session.step
  split
  next after performed =>
    cases Matcher.performed_of_perform? performed with
    | accept accepted => exact sound.accept accepted
    | rollback taken => exact sound.rollback taken
    | reset =>
      refine ⟨sound.constraint, trivial, ?_⟩
      rw [← sound.constraint]
      exact List.prefix_refl _
    | mask made =>
      have masked := (Matcher.masked_of_mask made).2
      refine ⟨masked.constraint.trans sound.constraint, sound.legal, ?_⟩
      rw [masked.current, masked.history]
      exact sound.states
    | jumpForward => exact sound
  next => exact sound

theorem run (sound : session.Sound c) (operations : List Operation) :
    (session.run operations).Sound c := by
  induction operations generalizing session with
  | nil => exact sound
  | cons operation operations ih => exact ih (sound.step operation)

theorem persists_step {P : Matcher → Prop} (persists : Matcher.Persists c P) (sound : session.Sound c)
    (holds : P session.matcher) (operation : Operation) : P (session.step operation).matcher := by
  unfold Session.step
  split
  next after performed =>
    cases Matcher.performed_of_perform? performed with
    | accept accepted =>
      have now := sound.current
      rw [← sound.constraint] at now
      exact persists.accept holds (Matcher.accepted_of_accept? now accepted)
    | rollback taken => exact persists.rollback holds taken
    | reset => exact persists.reset sound.constraint holds
    | mask made => exact persists.mask holds (Matcher.masked_of_mask made).2
    | jumpForward => exact holds
  next => exact holds

theorem persists_run {P : Matcher → Prop} (persists : Matcher.Persists c P) (sound : session.Sound c)
    (holds : P session.matcher) (operations : List Operation) : P (session.run operations).matcher := by
  induction operations generalizing session with
  | nil => exact holds
  | cons operation operations ih => exact ih (sound.step operation) (sound.persists_step persists holds operation)

end Session.Sound

namespace Matcher

structure Fresh (grammar : Grammar) (vocabulary : Vocabulary) (settings : MatcherSettings)
    (m : Matcher) : Prop where
  automaton : m.constraint.automaton = grammar.automaton
  maskSize : m.constraint.maskSize = settings.maskSize.getD vocabulary.size
  vocabulary : m.constraint.vocabulary = vocabulary
  current : m.current = m.constraint.progress []
  history : m.history = []
  cache : m.cache = []

theorem fresh_of_create {grammar : Grammar} {vocabulary : Vocabulary} {settings : MatcherSettings}
    {m : Matcher} (created : create grammar vocabulary settings = .ok m) :
    Fresh grammar vocabulary settings m := by
  unfold create at created
  dsimp only at created
  split at created
  next => cases created
  next =>
    cases created
    exact ⟨rfl, rfl, rfl, rfl, rfl, rfl⟩

theorem Fresh.sound {grammar : Grammar} {vocabulary : Vocabulary} {settings : MatcherSettings}
    {m : Matcher} (fresh : Fresh grammar vocabulary settings m) : Session.Sound m.constraint ⟨m, []⟩ := by
  refine ⟨rfl, trivial, ?_⟩
  rw [fresh.current, fresh.history]
  exact List.prefix_refl _

theorem Fresh.alive {grammar : Grammar} {vocabulary : Vocabulary} {settings : MatcherSettings}
    {m : Matcher} (fresh : Fresh grammar vocabulary settings m) (initial : grammar.automaton.initial.isDead = false) :
    m.Alive := by
  intro progress member
  rw [fresh.history] at member
  obtain rfl := List.mem_singleton.mp member
  rw [fresh.current, Constraint.progress, fresh.automaton]
  exact initial

theorem isSome_acceptToken?_stop {m : Matcher} {id : Nat} (stop : id ∈ m.constraint.stopTokens) :
    (m.acceptToken? id).1.isSome = true ↔
      m.current.stopped = false ∧ m.current.positions.accepting = true := by
  have stop : m.constraint.stopTokens.contains id = true := List.contains_iff_mem.mpr stop
  rw [acceptToken?]
  cases m.current.stopped with
  | true => simp
  | false =>
    rw [if_neg Bool.false_ne_true, if_pos stop]
    cases m.current.positions.accepting <;> simp

end Matcher

/-- Whatever is done with a matcher, it is where the text of the accepted inputs that were not taken
back leads, may end exactly where this text is one of the grammar, and accepts a stop token exactly
there unless it has accepted one. -/
theorem Session.follows_text {text : String} {grammarSettings : GrammarSettings} {grammar : Grammar}
    (compiled : Grammar.compile text grammarSettings = .ok grammar) {vocabulary : Vocabulary}
    {settings : MatcherSettings} {start : Matcher}
    (created : Matcher.create grammar vocabulary settings = .ok start) (operations : List Operation) :
    let session := Session.run ⟨start, []⟩ operations
    let consumed := start.constraint.text session.inputs
    session.matcher.current.positions =
        consumed.foldl grammar.automaton.step grammar.automaton.initial ∧
      (session.matcher.canEnd = true ↔ consumed ∈ grammar.language) ∧
      ∀ id ∈ start.constraint.stopTokens, (session.matcher.acceptToken? id).1.isSome = true ↔
        (∀ input ∈ session.inputs, start.constraint.isStop input = false) ∧
          consumed ∈ grammar.language := by
  intro session consumed
  have fresh := Matcher.fresh_of_create created
  have sound : session.Sound start.constraint := fresh.sound.run operations
  obtain ⟨rank, ranked⟩ := (Grammar.wellFormed_of_compile compiled).exists_leftRanked
  have positions : session.matcher.current.positions =
      consumed.foldl grammar.automaton.step grammar.automaton.initial := fresh.automaton ▸ sound.positions
  have accepting : session.matcher.current.positions.accepting = true ↔ consumed ∈ grammar.language := by
    rw [positions]
    exact Automaton.accepting_after ranked consumed
  have going : session.matcher.current.stopped = false ↔
      ∀ input ∈ session.inputs, start.constraint.isStop input = false := by
    simp [← Bool.not_eq_true, sound.stopped_iff]
  refine ⟨positions, ?_, fun id stop => ?_⟩
  · rw [Matcher.canEnd, Bool.or_eq_true, ← accepting]
    exact ⟨fun ends => ends.elim sound.accepting id, .inr⟩
  · rw [Matcher.isSome_acceptToken?_stop (by rwa [sound.constraint]), accepting, going]

theorem Matcher.exists_letters :
    ∃ vocabulary start,
      (Vocabulary.ofTokens [[98], [97], [60, 47, 115, 62]] .raw true).1 = .ok vocabulary ∧
      Matcher.create Grammar.letters vocabulary { stopTokens := some [2], maxRollback := 2 } = .ok start := by
  obtain ⟨vocabulary, built, size⟩ : ∃ vocabulary,
      (Vocabulary.ofTokens [[98], [97], [60, 47, 115, 62]] .raw true).1 = .ok vocabulary ∧
        vocabulary.size = 3 := ⟨_, rfl, rfl⟩
  refine ⟨vocabulary, ?_⟩
  simp [built, Matcher.create, size]

theorem Session.follows_text_letters :
    ∃ vocabulary start,
      Grammar.compile "root ::= [a-c] | \"b\" root" {} = .ok Grammar.letters ∧
      Matcher.create Grammar.letters vocabulary { stopTokens := some [2], maxRollback := 2 } = .ok start ∧
      let session := Session.run ⟨start, []⟩ [.accept (.bytes [98]), .accept (.token 1), .mask,
        .accept (.token 2), .rollback 2, .jumpForward, .accept (.token 0)]
      let consumed := start.constraint.text session.inputs
      session.matcher.current.positions =
          consumed.foldl Grammar.letters.automaton.step Grammar.letters.automaton.initial ∧
        (session.matcher.canEnd = true ↔ consumed ∈ Grammar.letters.language) ∧
        ∀ id ∈ start.constraint.stopTokens, (session.matcher.acceptToken? id).1.isSome = true ↔
          (∀ input ∈ session.inputs, start.constraint.isStop input = false) ∧
            consumed ∈ Grammar.letters.language := by
  obtain ⟨vocabulary, start, _, created⟩ := Matcher.exists_letters
  exact ⟨vocabulary, start, Grammar.compile_letters, created,
    Session.follows_text Grammar.compile_letters created _⟩

end GuidedDecoding
