import Mathlib
import GuidedDecoding.Proofs.Grammar.Compilation

namespace GuidedDecoding

theorem of_bind_eq_error {ε α β : Type} {x : Except ε α} {f : α → Except ε β} {fault : ε} (h : x >>= f = .error fault) :
    x = .error fault ∨ ∃ a, x = .ok a ∧ f a = .error fault := by
  cases x with
  | error e => exact .inl (congrArg _ (Except.error.inj h))
  | ok a => exact .inr ⟨a, rfl, h⟩

theorem of_map_eq_error {ε α β : Type} {x : Except ε α} {f : α → β} {fault : ε} (h : f <$> x = .error fault) :
    x = .error fault := by
  cases x with
  | error e => exact congrArg _ (Except.error.inj h)
  | ok a => cases h

theorem of_mapError_eq_error {ε ε' α : Type} {x : Except ε α} {f : ε → ε'} {fault : ε'}
    (h : x.mapError f = .error fault) : ∃ e, x = .error e ∧ f e = fault := by
  cases x with
  | error e => exact ⟨e, rfl, Except.error.inj h⟩
  | ok a => cases h

theorem exists_of_mapM_eq_error {ε α β : Type} {f : α → Except ε β} {items : List α} {fault : ε}
    (h : items.mapM f = .error fault) : ∃ item ∈ items, f item = .error fault := by
  induction items with
  | nil => cases h
  | cons item rest ih =>
    rw [List.mapM_cons] at h
    rcases of_bind_eq_error h with first | ⟨_, _, h⟩
    · exact ⟨item, List.mem_cons_self, first⟩
    · rcases of_bind_eq_error h with later | ⟨_, _, h⟩
      · obtain ⟨other, member, failed⟩ := ih later
        exact ⟨other, List.mem_cons_of_mem item member, failed⟩
      · cases h

theorem Expr.exists_of_resolve_eq_error {ref ref' ε : Type} {target : ref → Except ε ref'} {e : Expr ref} {fault : ε}
    (failed : e.resolve target = .error fault) : ∃ r, target r = .error fault := by
  have among {items : List (Expr ref)} (each : ∀ e ∈ items, e.resolve target = .error fault → ∃ r, target r = .error fault)
      (failed : resolveAll target items = .error fault) : ∃ r, target r = .error fault := by
    induction items with
    | nil => cases failed
    | cons e rest ih =>
      rw [resolveAll] at failed
      rcases of_bind_eq_error failed with first | ⟨_, _, failed⟩
      · exact each e (by simp) first
      · rcases of_bind_eq_error failed with later | ⟨_, _, failed⟩
        · exact ih (fun e member => each e (by simp [member])) later
        · cases failed
  induction e using structural with
  | empty => cases failed
  | literal bytes => cases bytes <;> cases failed
  | charClass negated ranges => cases failed
  | rule r => exact ⟨r, of_map_eq_error failed⟩
  | sequence items ih => exact among ih (of_map_eq_error failed)
  | choice alternatives ih => exact among ih (of_map_eq_error failed)
  | repetition body min max ih => exact ih (of_map_eq_error failed)

namespace Grammar

theorem numberFrom_ne_syntaxError {index : NameIndex} {next : RuleId} {names : List String} {place : Location}
    {cause : SyntaxCause} : numberFrom index next names ≠ .error (.syntaxError place cause) := by
  induction names generalizing index next with
  | nil =>
    intro failed
    cases failed
  | cons name rest ih =>
    rw [numberFrom]
    split_ifs
    · intro failed
      cases failed
    · exact ih

theorem resolve_ne_syntaxError {definitions : List Definition} {mainRule : String} {place : Location}
    {cause : SyntaxCause} : resolve definitions mainRule ≠ .error (.syntaxError place cause) := by
  intro failed
  rcases of_bind_eq_error failed with failed | ⟨index, _, failed⟩
  · exact numberFrom_ne_syntaxError failed
  · split at failed
    · rcases of_bind_eq_error failed with failed | ⟨_, _, failed⟩
      · obtain ⟨definition, _, failed⟩ := exists_of_mapM_eq_error failed
        rcases of_bind_eq_error failed with failed | ⟨_, _, failed⟩
        · obtain ⟨reference, failed⟩ := Expr.exists_of_resolve_eq_error failed
          unfold resolveName at failed
          split at failed <;> cases failed
        · cases failed
      · cases failed
    · cases failed

/-- Whatever is wrong with a text that can be read is not its syntax. -/
theorem ofText_eq_syntaxError_iff {text : List Char} {settings : GrammarSettings} {place : Location}
    {cause : SyntaxCause} :
    ofText text settings = .error (.syntaxError place cause) ↔
      ∃ fault, Definition.read text = .error fault ∧ Location.before text fault.rest = place ∧ fault.cause = cause := by
  rw [ofText_eq, resolvedText]
  constructor
  · intro failed
    rcases of_bind_eq_error failed with failed | ⟨found, _, failed⟩
    · rcases of_bind_eq_error failed with failed | ⟨_, _, failed⟩
      · obtain ⟨fault, unread, same⟩ := of_mapError_eq_error failed
        cases same
        exact ⟨fault, unread, rfl, rfl⟩
      · exact absurd failed resolve_ne_syntaxError
    · unfold checked at failed
      split at failed <;> cases failed
  · rintro ⟨fault, unread, rfl, rfl⟩
    rw [unread]
    rfl

end Grammar

end GuidedDecoding
