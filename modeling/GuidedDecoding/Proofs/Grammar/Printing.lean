import Mathlib
import GuidedDecoding.Proofs.Grammar.Compilation
import GuidedDecoding.Proofs.Grammar.Names
import GuidedDecoding.Proofs.Schema.Fragment

namespace GuidedDecoding

namespace Printer

theorem choice_append {some others : List (List Char)} (inhabited : some ≠ []) (more : others ≠ []) :
    choice (some ++ others) = choice some ++ ' ' :: '|' :: ' ' :: choice others := by
  obtain ⟨other, others, rfl⟩ := List.exists_cons_of_ne_nil more
  induction some with
  | nil => exact absurd rfl inhabited
  | cons one rest ih =>
    cases rest with
    | nil =>
      simp only [choice, List.intercalate_cons_cons, List.intercalate_singleton, List.append_assoc, List.cons_append,
        List.nil_append]
    | cons two rest =>
      have later := ih (by simp)
      simp only [choice, List.cons_append, List.intercalate_cons_cons] at later ⊢
      rw [later]
      simp only [List.append_assoc, List.cons_append, List.nil_append]

end Printer

namespace Fragment

def enclosed : List Sequence → Fragment
  | [[piece]] => piece
  | alternatives => group alternatives

theorem enclosed_eq_group {alternatives : List Sequence} (several : ∀ piece, alternatives ≠ [[piece]]) :
    enclosed alternatives = group alternatives := by
  unfold enclosed
  split
  next piece => exact absurd rfl (several piece)
  next => rfl

theorem enclosed_eq_group_of_length {alternatives : List Sequence} (several : 2 ≤ alternatives.length) :
    enclosed alternatives = group alternatives :=
  enclosed_eq_group fun piece same => by simp [same] at several

theorem expr_enclosed (alternatives : List Sequence) :
    (enclosed alternatives).expr = .single .choice (exprAlternatives alternatives) := by
  unfold enclosed
  split
  next piece => simp [exprAlternatives, exprSequence, Expr.single]
  next => rw [expr]

theorem spelled_enclosed {alternatives : List Sequence} (spelled : ∀ sequence ∈ alternatives, ∀ f ∈ sequence, f.Spelled) :
    (enclosed alternatives).Spelled := by
  unfold enclosed
  split
  next piece => exact spelled [piece] (List.mem_singleton_self _) piece (List.mem_singleton_self _)
  next => exact .group spelled

def AllLegible (alternatives : List Sequence) : Prop :=
  ∀ sequence ∈ alternatives, sequence ≠ [] ∧ ∀ f ∈ sequence, f.Legible

theorem legible_enclosed {alternatives : List Sequence} (inhabited : alternatives ≠ []) :
    (enclosed alternatives).Legible ↔ AllLegible alternatives := by
  unfold enclosed
  split
  next piece => simp [AllLegible]
  next => rw [legible_group, and_iff_right inhabited, AllLegible]

end Fragment

open Fragment (Sequence enclosed AllLegible)

namespace Expr

variable {ref : Type}

def classText (negated : Bool) (ranges : List CodeRange) : List Char :=
  (if negated then ['^'] else []) ++ ranges.flatMap Printer.range

mutual

def toAlternatives (name : ref → String) : Expr ref → List Sequence
  | empty => [[.empty]]
  | literal bytes => [[.literal bytes]]
  | charClass negated ranges => [[.charClass (String.ofList (classText negated ranges))]]
  | rule r => [[.rule (name r)]]
  | sequence [] => [[.empty]]
  | sequence items => [toSequence name items]
  | choice alternatives => toChoice name alternatives
  | repetition body min max => [[.repeated (enclosed (toAlternatives name body)) min max]]

def toSequence (name : ref → String) : List (Expr ref) → Sequence
  | [] => []
  | e :: rest => enclosed (toAlternatives name e) :: toSequence name rest

def toChoice (name : ref → String) : List (Expr ref) → List Sequence
  | [] => []
  | e :: rest => toAlternatives name e ++ toChoice name rest

end

/-- What can be printed so that it can be read, except that a repetition may be directly inside of another one. -/
def Writable (known : ref → Prop) : Expr ref → Prop
  | literal bytes => ∃ text, Utf8.encode text = bytes
  | charClass _ ranges => ranges ≠ [] ∧ ∀ range ∈ ranges, range.Bounded
  | rule r => known r
  | choice alternatives => alternatives ≠ []
  | repetition _ min max => Quantifiable min max
  | empty | sequence _ => True

abbrev AllWritable (known : ref → Prop) (e : Expr ref) : Prop := e.Every (Writable known)

variable {known : ref → Prop} {name : ref → String}

@[simp] theorem toChoice_singleton (e : Expr ref) : toChoice name [e] = toAlternatives name e := by
  rw [toChoice, toChoice, List.append_nil]

theorem toAlternatives_sequence {items : List (Expr ref)} (inhabited : items ≠ []) :
    toAlternatives name (sequence items) = [toSequence name items] := by
  cases items with
  | nil => exact absurd rfl inhabited
  | cons e rest => rw [toAlternatives]; simp

theorem toAlternatives_ne_nil {e : Expr ref} (writable : e.AllWritable known) : toAlternatives name e ≠ [] := by
  induction e using structural with
  | sequence items => cases items <;> simp [toAlternatives]
  | choice alternatives ih =>
    obtain ⟨e, rest, rfl⟩ := List.exists_cons_of_ne_nil writable.here
    rw [toAlternatives, toChoice]
    exact List.append_ne_nil_of_left_ne_nil (ih e (by simp) (writable.inside e (by simp [members]))) _
  | _ => simp [toAlternatives]

theorem toChoice_ne_nil {e : Expr ref} (rest : List (Expr ref)) (writable : e.AllWritable known) :
    toChoice name (e :: rest) ≠ [] := by
  rw [toChoice]
  exact List.append_ne_nil_of_left_ne_nil (toAlternatives_ne_nil writable) _

theorem length_toSequence (items : List (Expr ref)) : (toSequence name items).length = items.length := by
  induction items with
  | nil => rfl
  | cons e rest ih => rw [toSequence, List.length_cons, ih, List.length_cons]

theorem length_le_toChoice {alternatives : List (Expr ref)} (writable : ∀ e ∈ alternatives, e.AllWritable known) :
    alternatives.length ≤ (toChoice name alternatives).length := by
  induction alternatives with
  | nil => simp
  | cons e rest ih =>
    have first : 0 < (toAlternatives name e).length :=
      List.length_pos_of_ne_nil (toAlternatives_ne_nil (writable e (by simp)))
    have later := ih fun m member => writable m (by simp [member])
    rw [toChoice, List.length_cons, List.length_append]
    omega

theorem texts_true {items : List (Expr ref)}
    (each : ∀ e ∈ items, e.text name true = (enclosed (e.toAlternatives name)).text) :
    texts name true items = Fragment.sequenceTexts (toSequence name items) := by
  induction items with
  | nil => rfl
  | cons e rest ih =>
    rw [texts, each e (by simp), ih fun m member => each m (by simp [member]), toSequence, Fragment.sequenceTexts]

theorem alternativeTexts_append (one other : List Sequence) :
    Fragment.alternativeTexts (one ++ other) = Fragment.alternativeTexts one ++ Fragment.alternativeTexts other := by
  induction one with
  | nil => rfl
  | cons pieces rest ih =>
    rw [List.cons_append, Fragment.alternativeTexts, ih, Fragment.alternativeTexts, List.cons_append]

theorem alternativeTexts_ne_nil {alternatives : List Sequence} (inhabited : alternatives ≠ []) :
    Fragment.alternativeTexts alternatives ≠ [] := by
  cases alternatives with
  | nil => exact absurd rfl inhabited
  | cons pieces rest => simp [Fragment.alternativeTexts]

theorem choice_texts_false {alternatives : List (Expr ref)} (writable : ∀ e ∈ alternatives, e.AllWritable known)
    (each : ∀ e ∈ alternatives, e.text name false = Printer.choice (Fragment.alternativeTexts (e.toAlternatives name))) :
    Printer.choice (texts name false alternatives) =
      Printer.choice (Fragment.alternativeTexts (toChoice name alternatives)) := by
  induction alternatives with
  | nil => rfl
  | cons e rest ih =>
    have later := ih (fun m member => writable m (by simp [member])) fun m member => each m (by simp [member])
    have first : Fragment.alternativeTexts (toAlternatives name e) ≠ [] :=
      alternativeTexts_ne_nil (toAlternatives_ne_nil (writable e (by simp)))
    rw [toChoice, alternativeTexts_append]
    cases rest with
    | nil =>
      rw [texts, texts, Printer.choice, List.intercalate_singleton, each e (by simp), toChoice, Fragment.alternativeTexts,
        List.append_nil]
    | cons other rest =>
      have more : Fragment.alternativeTexts (toChoice name (other :: rest)) ≠ [] :=
        alternativeTexts_ne_nil (toChoice_ne_nil rest (writable other (by simp)))
      rw [Printer.choice_append first more, ← later, ← each e (by simp), texts, ← List.singleton_append,
        Printer.choice_append (by simp) (by simp [texts]), Printer.choice, List.intercalate_singleton]

theorem text_eq {e : Expr ref} (writable : e.AllWritable known) :
    e.text name false = Printer.choice (Fragment.alternativeTexts (e.toAlternatives name)) ∧
      e.text name true = (enclosed (e.toAlternatives name)).text := by
  have piece (f : Fragment) : Printer.choice (Fragment.alternativeTexts [[f]]) = f.text := by
    simp [Fragment.alternativeTexts, Fragment.sequenceTexts, Printer.choice, Printer.sequence, List.intercalate_singleton]
  have blank : (Fragment.empty).text = ['"', '"'] := by
    rw [Fragment.empty, Fragment.text, Printer.literal, Escape.bytes]
    rfl
  induction e using structural with
  | empty => exact ⟨by rw [toAlternatives, piece, blank, text], by rw [toAlternatives, enclosed, blank, text]⟩
  | literal bytes =>
    exact ⟨by rw [toAlternatives, piece, text, Fragment.text], by rw [toAlternatives, enclosed, text, Fragment.text]⟩
  | charClass negated ranges =>
    have inside : (Fragment.charClass (String.ofList (classText negated ranges))).text =
        Printer.charClass negated ranges := by simp [Fragment.text, classText, Printer.charClass]
    exact ⟨by rw [toAlternatives, piece, text, inside], by rw [toAlternatives, enclosed, text, inside]⟩
  | rule r =>
    exact ⟨by rw [toAlternatives, piece, text, Fragment.text], by rw [toAlternatives, enclosed, text, Fragment.text]⟩
  | sequence items ih =>
    cases items with
    | nil => exact ⟨by rw [toAlternatives, piece, blank, text], by rw [toAlternatives, enclosed, blank, text]⟩
    | cons e rest =>
      have each := texts_true fun e member => (ih e member (writable.inside e member)).2
      have body (nested : Bool) : text name nested (sequence (e :: rest)) = Printer.group nested (e :: rest).length
          (Printer.sequence (Fragment.sequenceTexts (toSequence name (e :: rest)))) := by
        rw [text, each]
        simp
      rw [toAlternatives_sequence (by simp), body, body]
      constructor
      · simp [Printer.group, Fragment.alternativeTexts, Printer.choice, List.intercalate_singleton]
      · cases rest with
        | nil => simp [toSequence, enclosed, Printer.group, Fragment.sequenceTexts, Printer.sequence, List.intercalate_singleton]
        | cons other rest =>
          rw [Fragment.enclosed_eq_group (by simp [toSequence])]
          simp [Printer.group, Fragment.text, Fragment.alternativeTexts, Printer.choice, List.intercalate_singleton]
  | choice alternatives ih =>
    have inside : ∀ e ∈ alternatives, e.AllWritable known := writable.inside
    have all := choice_texts_false inside fun e member => (ih e member (inside e member)).1
    rw [toAlternatives, text, text]
    constructor
    · simpa [Printer.group] using all
    · obtain ⟨e, rest, rfl⟩ := List.exists_cons_of_ne_nil writable.here
      cases rest with
      | nil =>
        rw [toChoice_singleton, ← (ih e (by simp) (inside e (by simp))).2]
        simp [Printer.group, texts, Printer.choice, List.intercalate_singleton]
      | cons other rest =>
        have several : (e :: other :: rest).length ≤ (toChoice name (e :: other :: rest)).length :=
          length_le_toChoice inside
        rw [Fragment.enclosed_eq_group_of_length (Nat.le_trans (by simp) several), Fragment.text, ← all]
        simp [Printer.group]
  | repetition body min max ih =>
    have inner := (ih writable.body).2
    exact ⟨by rw [toAlternatives, piece, text, Fragment.text, inner],
      by rw [toAlternatives, enclosed, text, Fragment.text, inner]⟩

theorem read_classText (negated : Bool) {ranges : List CodeRange} (inhabited : ranges ≠ [])
    (bounded : ∀ range ∈ ranges, range.Bounded) (rest : List Char) :
    Token.read '[' ((String.ofList (classText negated ranges)).toList ++ ']' :: rest) =
      (.charClass negated ranges, rest) := by
  rw [String.toList_ofList]
  exact Token.read_spelledClass negated inhabited (Escape.spells_ranges bounded) rest

theorem spelled_toSequence {items : List (Expr ref)}
    (each : ∀ e ∈ items, (enclosed (e.toAlternatives name)).Spelled) : ∀ f ∈ toSequence name items, f.Spelled := by
  induction items with
  | nil => simp [toSequence]
  | cons e rest ih =>
    rw [toSequence, List.forall_mem_cons]
    exact ⟨each e (by simp), ih fun m member => each m (by simp [member])⟩

theorem spelled_toChoice {alternatives : List (Expr ref)}
    (each : ∀ e ∈ alternatives, ∀ sequence ∈ e.toAlternatives name, ∀ f ∈ sequence, f.Spelled) :
    ∀ sequence ∈ toChoice name alternatives, ∀ f ∈ sequence, f.Spelled := by
  induction alternatives with
  | nil => simp [toChoice]
  | cons e rest ih =>
    rw [toChoice, List.forall_mem_append]
    exact ⟨each e (by simp), ih fun m member => each m (by simp [member])⟩

theorem spelled_toAlternatives {e : Expr ref} (writable : e.AllWritable known)
    (names : ∀ r, known r → Token.IsName (name r)) :
    ∀ sequence ∈ e.toAlternatives name, ∀ f ∈ sequence, f.Spelled := by
  have piece {f : Fragment} (spelled : f.Spelled) : ∀ sequence ∈ [[f]], ∀ f ∈ sequence, f.Spelled := by simpa
  induction e using structural with
  | empty =>
    rw [toAlternatives]
    exact piece (.literal [])
  | literal bytes =>
    obtain ⟨text, rfl⟩ := writable.here
    rw [toAlternatives]
    exact piece (.literal text)
  | charClass negated ranges =>
    obtain ⟨inhabited, bounded⟩ := writable.here
    rw [toAlternatives]
    exact piece (.charClass (read_classText negated inhabited bounded))
  | rule r =>
    rw [toAlternatives]
    exact piece (.rule (names r writable.here))
  | sequence items ih =>
    cases items with
    | nil =>
      rw [toAlternatives]
      exact piece (.literal [])
    | cons e rest =>
      rw [toAlternatives_sequence (by simp), List.forall_mem_singleton]
      exact spelled_toSequence fun m member => Fragment.spelled_enclosed (ih m member (writable.inside m member))
  | choice alternatives ih =>
    rw [toAlternatives]
    exact spelled_toChoice fun m member => ih m member (writable.inside m member)
  | repetition body min max ih =>
    rw [toAlternatives]
    exact piece (.repeated min max (Fragment.spelled_enclosed (ih writable.body)))

/-- A repetition is not printed directly behind another quantifier. -/
def Bare (name : ref → String) : Expr ref → Prop
  | repetition body _ _ => (enclosed (body.toAlternatives name)).isRepeated = false
  | _ => True

theorem legible_toSequence {items : List (Expr ref)}
    (each : ∀ e ∈ items, (enclosed (e.toAlternatives name)).Legible ↔ e.Every (Bare name)) :
    (∀ f ∈ toSequence name items, f.Legible) ↔ ∀ e ∈ items, e.Every (Bare name) := by
  induction items with
  | nil => simp [toSequence]
  | cons e rest ih =>
    rw [toSequence, List.forall_mem_cons, List.forall_mem_cons, each e (by simp),
      ih fun m member => each m (by simp [member])]

theorem legible_toChoice {alternatives : List (Expr ref)}
    (each : ∀ e ∈ alternatives, AllLegible (e.toAlternatives name) ↔ e.Every (Bare name)) :
    AllLegible (toChoice name alternatives) ↔ ∀ e ∈ alternatives, e.Every (Bare name) := by
  induction alternatives with
  | nil => simp [toChoice, AllLegible]
  | cons e rest ih =>
    have first := each e (by simp)
    have later := ih fun m member => each m (by simp [member])
    rw [AllLegible] at first later ⊢
    rw [toChoice, List.forall_mem_append, List.forall_mem_cons, first, later]

/-- What is printed can be read, unless it has one quantifier behind another. -/
theorem allLegible_iff {e : Expr ref} (writable : e.AllWritable known) :
    AllLegible (e.toAlternatives name) ↔ e.Every (Bare name) := by
  have piece (f : Fragment) : AllLegible [[f]] ↔ f.Legible := by simp [AllLegible]
  have enclosed_iff {e : Expr ref} (writable : e.AllWritable known)
      (ih : AllLegible (e.toAlternatives name) ↔ e.Every (Bare name)) :
      (enclosed (e.toAlternatives name)).Legible ↔ e.Every (Bare name) := by
    rw [Fragment.legible_enclosed (toAlternatives_ne_nil writable), ih]
  induction e using structural with
  | empty =>
    rw [toAlternatives, piece]
    exact iff_of_true (.literal _) (.leaf trivial rfl)
  | literal bytes =>
    rw [toAlternatives, piece]
    exact iff_of_true (.literal _) (.leaf trivial rfl)
  | charClass negated ranges =>
    rw [toAlternatives, piece]
    exact iff_of_true (.charClass _) (.leaf trivial rfl)
  | rule r =>
    rw [toAlternatives, piece]
    exact iff_of_true (.rule _) (.leaf trivial rfl)
  | sequence items ih =>
    cases items with
    | nil =>
      rw [toAlternatives, piece]
      exact iff_of_true (.literal _) (.leaf trivial rfl)
    | cons e rest =>
      have all : (∀ f ∈ toSequence name (e :: rest), f.Legible) ↔ ∀ m ∈ e :: rest, m.Every (Bare name) :=
        legible_toSequence fun m member =>
          enclosed_iff (writable.inside m member) (ih m member (writable.inside m member))
      have filled : toSequence name (e :: rest) ≠ [] := by simp [toSequence]
      rw [toAlternatives_sequence (by simp), AllLegible, List.forall_mem_singleton, and_iff_right filled, all, every_iff]
      exact (and_iff_right trivial).symm
  | choice alternatives ih =>
    rw [toAlternatives, legible_toChoice fun e member => ih e member (writable.inside e member), every_iff]
    exact (and_iff_right trivial).symm
  | repetition body min max ih =>
    have inside := writable.body
    rw [toAlternatives, piece, Fragment.legible_repeated, enclosed_iff inside (ih inside),
      and_iff_left (show Quantifiable min max from writable.here), every_iff (e := repetition body min max)]
    simp only [members, List.forall_mem_singleton]
    exact and_comm

end Expr

end GuidedDecoding
