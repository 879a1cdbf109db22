import Mathlib
import GuidedDecoding.Proofs.Grammar.Language

namespace GuidedDecoding.Expr

variable {ref : Type}

def members : Expr ref → List (Expr ref)
  | sequence items => items
  | choice alternatives => alternatives
  | repetition body _ _ => [body]
  | empty | literal _ | charClass _ _ | rule _ => []

/-- A property of an expression and of everything inside it. -/
inductive Every (P : Expr ref → Prop) : Expr ref → Prop where
  | intro {e : Expr ref} (here : P e) (inside : ∀ m ∈ e.members, Every P m) : Every P e

namespace Every

variable {P Q : Expr ref → Prop} {e : Expr ref}

theorem here (every : Every P e) : P e := by
  obtain ⟨here, _⟩ := every
  exact here

theorem inside (every : Every P e) : ∀ m ∈ e.members, Every P m := by
  obtain ⟨_, inside⟩ := every
  exact inside

theorem imp (h : ∀ e, P e → Q e) (every : Every P e) : Every Q e := by
  induction every with
  | intro here _ ih => exact .intro (h _ here) ih

theorem and (one : Every P e) (two : Every Q e) : Every (fun e => P e ∧ Q e) e := by
  induction one with
  | intro here _ ih => exact .intro ⟨here, two.here⟩ fun m member => ih m member (two.inside m member)

theorem leaf (here : P e) (alone : e.members = []) : Every P e := .intro here (by simp [alone])

theorem repetition {min : Nat} {max : Option Nat} (here : P (.repetition e min max)) (inside : Every P e) :
    Every P (.repetition e min max) := .intro here (List.forall_mem_singleton.mpr inside)

theorem body {min : Nat} {max : Option Nat} (every : Every P (.repetition e min max)) : Every P e :=
  every.inside e (List.mem_singleton_self e)

end Every

theorem every_iff {P : Expr ref → Prop} {e : Expr ref} : e.Every P ↔ P e ∧ ∀ m ∈ e.members, m.Every P :=
  ⟨fun every => ⟨every.here, every.inside⟩, fun h => .intro h.1 h.2⟩

theorem every_of_forall {P : Expr ref → Prop} (all : ∀ e, P e) (e : Expr ref) : e.Every P := by
  induction e using structural with
  | sequence items ih => exact .intro (all _) ih
  | choice alternatives ih => exact .intro (all _) ih
  | repetition body min max ih => exact .repetition (all _) ih
  | _ => exact .leaf (all _) rfl

theorem Every.congr {P Q R : Expr ref → Prop} {e : Expr ref} (known : e.Every R)
    (same : ∀ e, e.Every R → (P e ↔ Q e)) : e.Every P ↔ e.Every Q := by
  induction known with
  | intro here inside ih =>
    rw [every_iff, every_iff]
    exact and_congr (same _ (.intro here inside)) (forall₂_congr ih)

/-- References are known, and there is an alternative to every choice. -/
def Resolved (known : ref → Prop) : Expr ref → Prop
  | rule target => known target
  | choice alternatives => alternatives ≠ []
  | _ => True

def Refers (known : ref → Prop) : Expr ref → Prop
  | rule target => known target
  | _ => True

def ClassInhabited : Expr ref → Prop
  | charClass negated ranges => ∃ c : Char, CodeRange.CoversSwapped ranges c.toNat ↔ negated = false
  | _ => True

/-- Rules, classes and choices that match something. -/
def Productive (rules : RuleId → Language UInt8) (e : Expr RuleId) : Prop :=
  e.Resolved (fun r => ∃ w, w ∈ rules r) ∧ e.ClassInhabited

theorem exists_mem_pow {language : Language UInt8} {w : List UInt8} (member : w ∈ language)
    (count : Nat) : ∃ u, u ∈ language ^ count := by
  induction count with
  | zero => exact ⟨[], by rw [pow_zero]; exact Language.nil_mem_one⟩
  | succ count ih =>
    obtain ⟨u, others⟩ := ih
    exact ⟨w ++ u, by rw [pow_succ']; exact Language.append_mem_mul member others⟩

theorem exists_mem_language {rules : RuleId → Language UInt8} {e : Expr RuleId}
    (productive : e.Every (Productive rules)) : ∃ w, w ∈ e.language rules := by
  induction e using structural with
  | empty => exact ⟨[], by rw [language]; exact Language.nil_mem_one⟩
  | literal bytes => exact ⟨bytes, by rw [language]; rfl⟩
  | charClass negated ranges =>
    obtain ⟨c, held⟩ := productive.here.2
    exact ⟨_, (mem_language_charClass negated ranges _).mpr ⟨c, held, rfl⟩⟩
  | rule target =>
    rw [language]
    exact productive.here.1
  | sequence items ih =>
    have inside := productive.inside
    rw [members] at inside
    clear productive
    rw [language]
    induction items with
    | nil => exact ⟨[], Language.nil_mem_one⟩
    | cons e rest tail =>
      obtain ⟨u, first⟩ := ih e (by simp) (inside e (by simp))
      obtain ⟨v, others⟩ := tail (fun m member => ih m (by simp [member]))
        fun m member => inside m (by simp [member])
      exact ⟨u ++ v, by rw [languageAll]; exact Language.append_mem_mul first others⟩
  | choice alternatives ih =>
    obtain ⟨e, among⟩ := List.exists_mem_of_ne_nil _ productive.here.1
    obtain ⟨w, inside⟩ := ih e among (productive.inside e among)
    rw [language]
    exact ⟨w, (mem_languageAny alternatives w).mpr ⟨e, among, inside⟩⟩
  | repetition body min max ih =>
    obtain ⟨w, inside⟩ := ih productive.body
    obtain ⟨u, inside⟩ := exists_mem_pow inside min
    refine ⟨u, (mem_language_repetition body min max u).mpr ⟨min, ⟨Nat.le_refl min, ?_⟩, inside⟩⟩
    exact fun bound _ => Nat.le_max_left min bound

end GuidedDecoding.Expr
