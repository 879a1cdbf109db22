import Mathlib
import GuidedDecoding.Proofs.Matcher.Session

namespace GuidedDecoding

theorem Constraint.Legal.going {c : Constraint} {inputs : List Input} (legal : c.Legal inputs) :
    ∀ progress ∈ (c.states inputs).tail, progress.stopped = false := by
  induction inputs with
  | nil => exact fun _ member => absurd member List.not_mem_nil
  | cons input earlier ih =>
    obtain ⟨before, going, _⟩ := legal
    obtain ⟨rest, states⟩ := states_eq_cons (c := c) earlier
    have old := ih before
    rw [states, List.tail_cons] at old
    change ∀ progress ∈ c.states earlier, progress.stopped = false
    rw [states]
    exact List.forall_mem_cons.mpr ⟨going, old⟩

namespace Matcher

variable {m : Matcher} (stopped : m.current.stopped = true)
include stopped

theorem accept?_stopped (input : Input) : m.accept? input = none := by
  cases input with
  | token id =>
    change (m.acceptToken? id).1 = none
    rw [acceptToken?, if_pos stopped]
  | bytes bytes =>
    change m.acceptBytes? bytes = none
    rw [acceptBytes?, if_pos stopped]

theorem mask_stopped : m.mask = .error .stopped := by rw [mask, if_pos stopped]

theorem jumpForward_stopped : m.jumpForward = [] := by rw [jumpForward, if_pos stopped]

end Matcher

namespace Session.Sound

variable {c : Constraint} {session : Session} (sound : session.Sound c)
include sound

theorem going : ∀ progress ∈ session.matcher.history, progress.stopped = false := by
  intro progress member
  obtain ⟨rest, found⟩ := Constraint.states_eq_cons (c := c) session.inputs
  have states := sound.states
  have old := sound.legal.going
  rw [found] at states old
  exact old progress ((List.cons_prefix_cons.mp states).2.subset member)

theorem resumes_of_rollback {count : Nat} {next : Matcher} {events : List Event} (positive : 1 ≤ count)
    (taken : session.matcher.rollback count = .ok (next, events)) : next.current.stopped = false := by
  obtain ⟨_, _, _, states⟩ := Matcher.rollback_eq_ok taken
  obtain ⟨earlier, rfl⟩ := Nat.exists_eq_add_of_le' positive
  rw [List.drop_succ_cons] at states
  have remembered : next.current ∈ session.matcher.history.drop earlier := states ▸ List.mem_cons_self
  exact sound.going next.current (List.mem_of_mem_drop remembered)

theorem resumes_iff (stopped : session.matcher.current.stopped = true) (operation : Operation) :
    (session.step operation).matcher.current.stopped = false ↔
      operation = .reset ∨ ∃ count, 1 ≤ count ∧ operation = .rollback count ∧
        ∃ next events, session.matcher.rollback count = .ok (next, events) := by
  constructor
  · intro resumed
    unfold Session.step at resumed
    split at resumed
    next after performed =>
      cases Matcher.performed_of_perform? performed with
      | accept accepted =>
        rw [Matcher.accept?_stopped stopped] at accepted
        cases accepted
      | @rollback count _ events taken =>
        cases count with
        | zero =>
          have current := (List.cons.inj (Matcher.rollback_eq_ok taken).2.2.2).1
          rw [current, stopped] at resumed
          cases resumed
        | succ count => exact .inr ⟨count + 1, Nat.succ_pos count, rfl, after, events, taken⟩
      | reset => exact .inl rfl
      | mask made =>
        rw [Matcher.mask_stopped stopped] at made
        cases made
      | jumpForward =>
        rw [stopped] at resumed
        cases resumed
    next =>
      rw [stopped] at resumed
      cases resumed
  · intro resumes
    rcases resumes with rfl | ⟨count, positive, rfl, next, events, taken⟩
    · rfl
    · have performed : session.matcher.perform? (.rollback count) = some next := by
        change (session.matcher.rollback count).toOption.map Prod.fst = some next
        rw [taken]
        rfl
      rw [Session.step, performed]
      exact sound.resumes_of_rollback positive taken

end Session.Sound

/-- Whatever is done with a matcher, it has stopped exactly if one of the accepted inputs that were not taken back is
a stop token, and then the main rule is matched. None of the states that it remembers has stopped. While it has
stopped it accepts nothing, makes no mask and forces no text, and exactly a reset and a rollback by one input or more
that the history is long enough for let it go on. -/
theorem Session.stops_until_undone {grammar : Grammar} {vocabulary : Vocabulary} {settings : MatcherSettings}
    {start : Matcher} (created : Matcher.create grammar vocabulary settings = .ok start)
    (operations : List Operation) :
    let session := Session.run ⟨start, []⟩ operations
    let m := session.matcher
    (m.current.stopped = true ↔ ∃ input ∈ session.inputs, start.constraint.isStop input = true) ∧
      (m.current.stopped = true → m.current.positions.accepting = true) ∧
      (∀ progress ∈ m.history, progress.stopped = false) ∧
      (m.current.stopped = true →
        (∀ input, m.accept? input = none) ∧ m.mask = .error .stopped ∧ m.jumpForward = []) ∧
      (m.current.stopped = true → ∀ operation, (session.step operation).matcher.current.stopped = false ↔
        operation = .reset ∨ ∃ count, 1 ≤ count ∧ operation = .rollback count ∧
          ∃ next events, m.rollback count = .ok (next, events)) := by
  intro session m
  have sound : session.Sound start.constraint := (Matcher.fresh_of_create created).sound.run operations
  exact ⟨sound.stopped_iff, sound.accepting, sound.going,
    fun stopped => ⟨Matcher.accept?_stopped stopped, Matcher.mask_stopped stopped, Matcher.jumpForward_stopped stopped⟩,
    sound.resumes_iff⟩

theorem Session.stops_until_undone_letters :
    ∃ vocabulary start,
      (Vocabulary.ofTokens [[98], [97], [60, 47, 115, 62]] .raw true).1 = .ok vocabulary ∧
      Matcher.create Grammar.letters vocabulary { stopTokens := some [2], maxRollback := 2 } = .ok start ∧
      let session := Session.run ⟨start, []⟩ [.accept (.token 0), .accept (.token 1), .rollback 1, .accept (.token 2),
        .accept (.bytes [98]), .mask, .rollback 0]
      let m := session.matcher
      session.inputs = [.token 2, .token 0] ∧ m.current.stopped = true ∧ m.history.length = 2 ∧
        (m.current.stopped = true ↔ ∃ input ∈ session.inputs, start.constraint.isStop input = true) ∧
        (m.current.stopped = true → m.current.positions.accepting = true) ∧
        (∀ progress ∈ m.history, progress.stopped = false) ∧
        (m.current.stopped = true →
          (∀ input, m.accept? input = none) ∧ m.mask = .error .stopped ∧ m.jumpForward = []) ∧
        (m.current.stopped = true → ∀ operation, (session.step operation).matcher.current.stopped = false ↔
          operation = .reset ∨ ∃ count, 1 ≤ count ∧ operation = .rollback count ∧
            ∃ next events, m.rollback count = .ok (next, events)) := by
  obtain ⟨vocabulary, start, built, created, inputs, stopped, length⟩ : ∃ vocabulary start,
      (Vocabulary.ofTokens [[98], [97], [60, 47, 115, 62]] .raw true).1 = .ok vocabulary ∧
      Matcher.create Grammar.letters vocabulary { stopTokens := some [2], maxRollback := 2 } = .ok start ∧
      let session := Session.run ⟨start, []⟩ [.accept (.token 0), .accept (.token 1), .rollback 1, .accept (.token 2),
        .accept (.bytes [98]), .mask, .rollback 0]
      session.inputs = [.token 2, .token 0] ∧ session.matcher.current.stopped = true ∧
        session.matcher.history.length = 2 := ⟨_, _, rfl, rfl, by with_unfolding_all decide⟩
  exact ⟨vocabulary, start, built, created, inputs, stopped, length, Session.stops_until_undone created _⟩

end GuidedDecoding
