import Mathlib
import GuidedDecoding.Proofs.Grammar.TextRecursion
import GuidedDecoding.Proofs.Schema.Visits

namespace GuidedDecoding

open Fragment (Sequence)

namespace Leading

variable {definitions : List Definition} {name : String} {items : List (Expr String)}

theorem of_single {many : List (Expr String) → Expr String}
    (alone : ∀ e, Leading definitions e name → Leading definitions (many [e]) name)
    (leading : Leading definitions (.single many items) name) : Leading definitions (many items) name := by
  unfold Expr.single at leading
  split at leading
  next item => exact alone item leading
  next => exact leading

theorem sequence_of_single (leading : Leading definitions (.single .sequence items) name) :
    Leading definitions (.sequence items) name :=
  of_single (fun _ inside => sequence_cons_iff.mpr (.inl inside)) leading

theorem choice_of_single (leading : Leading definitions (.single .choice items) name) :
    Leading definitions (.choice items) name :=
  of_single (fun _ inside => choice_cons_iff.mpr (.inl inside)) leading

end Leading

namespace Fragment

def consumes : Fragment → Bool
  | literal bytes => !bytes.isEmpty
  | _ => false

mutual

/-- The names of the rules that may be entered before anything is read. -/
def leadNames : Fragment → List String
  | rule name => [name]
  | repeated body _ _ => body.leadNames
  | group alternatives => alternativeLeadNames alternatives
  | _ => []

def sequenceLeadNames : List Fragment → List String
  | [] => []
  | piece :: rest => piece.leadNames ++ if piece.consumes then [] else sequenceLeadNames rest

def alternativeLeadNames : List (List Fragment) → List String
  | [] => []
  | pieces :: rest => sequenceLeadNames pieces ++ alternativeLeadNames rest

end

theorem consumes_ofText (c : Char) (text : List Char) : (ofText (c :: text)).consumes = true := by
  have some : String.utf8EncodeChar c ≠ [] := by
    have size := c.utf8Size_pos
    rw [← String.length_utf8EncodeChar] at size
    exact List.ne_nil_of_length_pos size
  rw [ofText, consumes, Utf8.encode_cons]
  simp [some]

section

variable {definitions : List Definition} {name : String}

theorem not_vanishes_of_consumes {f : Fragment} (consumes : f.consumes = true) : ¬Vanishes definitions f.expr := by
  intro vanishes
  cases f with
  | literal bytes =>
    rw [expr] at vanishes
    cases vanishes
    cases consumes
  | _ => cases consumes

theorem mem_sequenceLeadNames {pieces : Sequence}
    (each : ∀ f ∈ pieces, Leading definitions f.expr name → name ∈ f.leadNames)
    (leading : Leading definitions (.sequence (exprSequence pieces)) name) : name ∈ sequenceLeadNames pieces := by
  induction pieces with
  | nil =>
    generalize none : exprSequence [] = items at leading
    obtain ⟨_, _⟩ := leading
    simp [exprSequence] at none
  | cons f pieces ih =>
    rw [exprSequence, Leading.sequence_cons_iff] at leading
    rw [sequenceLeadNames, List.mem_append]
    rcases leading with here | ⟨skipped, later⟩
    · exact .inl (each f (by simp) here)
    · rw [if_neg fun consumes => not_vanishes_of_consumes consumes skipped]
      exact .inr (ih (fun m member => each m (by simp [member])) later)

theorem mem_alternativeLeadNames {alternatives : List Sequence}
    (each : ∀ pieces ∈ alternatives, ∀ f ∈ pieces, Leading definitions f.expr name → name ∈ f.leadNames)
    (leading : Leading definitions (.single .choice (exprAlternatives alternatives)) name) :
    name ∈ alternativeLeadNames alternatives := by
  replace leading := leading.choice_of_single
  induction alternatives with
  | nil =>
    cases leading with
    | choice among => simp [exprAlternatives] at among
  | cons pieces alternatives ih =>
    rw [exprAlternatives, Leading.choice_cons_iff] at leading
    rw [alternativeLeadNames, List.mem_append]
    exact leading.imp (fun first => mem_sequenceLeadNames (each pieces (by simp)) first.sequence_of_single)
      (ih fun other member => each other (by simp [member]))

theorem mem_leadNames {f : Fragment} (leading : Leading definitions f.expr name) : name ∈ f.leadNames := by
  induction f using structural with
  | literal bytes =>
    rw [expr] at leading
    cases leading
  | charClass inside =>
    rw [expr, classExpr] at leading
    split at leading <;> cases leading
  | rule other =>
    rw [expr] at leading
    cases leading
    simp [leadNames]
  | repeated body min max ih =>
    rw [expr] at leading
    rw [leadNames]
    cases leading with
    | repetition _ inside => exact ih inside
  | group alternatives ih =>
    rw [expr] at leading
    rw [leadNames]
    exact mem_alternativeLeadNames ih leading

end

section

variable {known : String → Prop}

theorem every_single {many : List (Expr String) → Expr String} {items : List (Expr String)}
    (here : (many items).Refers known) (inside : (many items).members = items)
    (each : ∀ e ∈ items, e.Every (Expr.Refers known)) : (Expr.single many items).Every (Expr.Refers known) := by
  unfold Expr.single
  split
  next item => exact each item (by simp)
  next => exact .intro here (by rwa [inside])

theorem every_exprAlternatives {alternatives : List Sequence}
    (each : ∀ pieces ∈ alternatives, ∀ f ∈ pieces, f.expr.Every (Expr.Refers known)) :
    (Expr.single .choice (exprAlternatives alternatives)).Every (Expr.Refers known) := by
  have sequence (pieces : Sequence) (each : ∀ f ∈ pieces, f.expr.Every (Expr.Refers known)) :
      ∀ e ∈ exprSequence pieces, e.Every (Expr.Refers known) := by
    induction pieces with
    | nil => simp [exprSequence]
    | cons f pieces ih =>
      rw [exprSequence, List.forall_mem_cons]
      exact ⟨each f (by simp), ih fun m member => each m (by simp [member])⟩
  refine every_single trivial rfl ?_
  induction alternatives with
  | nil => simp [exprAlternatives]
  | cons pieces alternatives ih =>
    rw [exprAlternatives, List.forall_mem_cons]
    exact ⟨every_single trivial rfl (sequence pieces (each pieces (by simp))),
      ih fun other member => each other (by simp [member])⟩

theorem every_refers {f : Fragment} (names : ∀ name ∈ f.ruleNames, known name) : f.expr.Every (Expr.Refers known) := by
  induction f using structural with
  | literal bytes =>
    rw [expr]
    exact .leaf trivial rfl
  | charClass inside =>
    rw [expr, classExpr]
    split <;> exact .leaf trivial rfl
  | rule name =>
    rw [expr]
    exact .leaf (names name (by simp)) rfl
  | repeated body min max ih =>
    rw [expr]
    exact .repetition trivial (ih (by simpa using names))
  | group alternatives ih =>
    rw [expr]
    rw [forall_ruleNames_group] at names
    exact every_exprAlternatives fun pieces among f member => ih pieces among f member (refers_iff.mp (names pieces among) f member)

end

end Fragment

namespace FragmentRule

variable {rules : List FragmentRule}

def leadNames (rule : FragmentRule) : List String := Fragment.alternativeLeadNames rule.alternatives

theorem mem_leadNames_of_callsFirst {definitions : List Definition} {a b : String}
    (same : rules.map definition = definitions) (calls : CallsFirst definitions a b) :
    ∃ rule ∈ rules, rule.name = a ∧ b ∈ rule.leadNames := by
  subst same
  obtain ⟨d, member, rfl, leading⟩ := calls
  obtain ⟨rule, listed, rfl⟩ := List.mem_map.mp member
  exact ⟨rule, listed, rfl, Fragment.mem_alternativeLeadNames (fun _ _ _ _ => Fragment.mem_leadNames) leading⟩

theorem Closed.referencesDefined (closed : Closed rules) : Grammar.ReferencesDefined (rules.map definition) := by
  have names : (rules.map definition).map Definition.name = rules.map FragmentRule.name := List.map_map
  refine List.forall_mem_map.mpr fun rule member => ?_
  rw [names]
  refine Fragment.every_exprAlternatives fun pieces among f inside => Fragment.every_refers ?_
  have known := Fragment.forall_alternativeRuleNames.mp (closed.defined rule member)
  exact Fragment.refers_iff.mp (known pieces among) f inside

/-- Rules whose text can be read compile if each of them enters rules of a lower rank first. -/
theorem exists_ofText (closed : Closed rules) (readable : ∀ rule ∈ rules, rule.Readable) (rank : String → Nat)
    (descends : ∀ rule ∈ rules, ∀ name ∈ rule.leadNames, rank name < rank rule.name) (normalize : Bool) :
    ∃ grammar, Grammar.ofText (rules.flatMap text) ⟨"root", normalize⟩ = .ok grammar := by
  have names : (rules.map definition).map Definition.name = rules.map FragmentRule.name := List.map_map
  have main : "root" ∈ rules.map FragmentRule.name := List.count_pos_iff.mp (by rw [closed.main]; exact Nat.one_pos)
  have inhabited : rules ≠ [] := by
    rintro rfl
    cases main
  have read : Definition.read (rules.flatMap text) = .ok (rules.map definition) :=
    (Definition.read_texts inhabited fun rule member => (readable rule member).spelled).mpr
      ⟨fun rule member => (readable rule member).legible, rfl⟩
  have lower {a b : String} (path : Relation.TransGen (CallsFirst (rules.map definition)) a b) : rank b < rank a := by
    have step {a b : String} (calls : CallsFirst (rules.map definition) a b) : rank b < rank a := by
      obtain ⟨rule, member, rfl, leads⟩ := mem_leadNames_of_callsFirst rfl calls
      exact descends rule member b leads
    induction path with
    | single calls => exact step calls
    | tail _ calls ih => exact (step calls).trans ih
  rw [← names] at main
  exact Grammar.exists_ofText read (names ▸ closed.distinct) main closed.referencesDefined
    (fun d _ recursive => Nat.lt_irrefl _ (lower recursive)) normalize

end FragmentRule

namespace Fragment

@[simp] theorem leadNames_ofText (content : List Char) : (ofText content).leadNames = [] := by rw [ofText, leadNames] <;> simp

@[simp] theorem sequenceLeadNames_ofText (c : Char) (text : List Char) (rest : Sequence) :
    sequenceLeadNames (ofText (c :: text) :: rest) = [] := by
  rw [sequenceLeadNames, leadNames_ofText, if_pos (consumes_ofText c text), List.append_nil]

theorem sequenceLeadNames_orEmpty (settings : SchemaSettings) {nonEmpty empty : Sequence}
    (filled : sequenceLeadNames nonEmpty = []) (bare : sequenceLeadNames empty = []) :
    sequenceLeadNames (settings.orEmpty nonEmpty empty) = [] := by
  unfold SchemaSettings.orEmpty
  split_ifs
  · exact filled
  · simp [sequenceLeadNames, leadNames, alternativeLeadNames, filled, bare]

end Fragment

namespace CommonRules

/-- The rule for any value enters others first that every schema may refer to, and those enter none first. -/
def rank (name : String) : Nat :=
  if name = "basic_any" then 1 else if name ∈ (all {}).map FragmentRule.name then 0 else 2

theorem leadNames_array (settings : SchemaSettings) : (array settings).leadNames = [] := by
  rw [FragmentRule.leadNames, array, Fragment.alternativeLeadNames, Fragment.alternativeLeadNames, List.append_nil]
  exact Fragment.sequenceLeadNames_orEmpty settings (by simp [Layout.arrayOf]) (by simp [Layout.emptyArray])

theorem leadNames_object (settings : SchemaSettings) : (object settings).leadNames = [] := by
  rw [FragmentRule.leadNames, object, Fragment.alternativeLeadNames, Fragment.alternativeLeadNames, List.append_nil]
  exact Fragment.sequenceLeadNames_orEmpty settings (by simp [Layout.objectOf]) (by simp [Layout.emptyObject])

theorem rank_lt (settings : SchemaSettings) :
    ∀ rule ∈ all settings, ∀ name ∈ rule.leadNames, rank name < rank rule.name := by
  have known : ∀ rule ∈ fixed, ∀ name ∈ rule.leadNames, rank name < rank rule.name := by with_unfolding_all decide
  refine List.forall_mem_append.mpr ⟨known, ?_⟩
  simp [leadNames_array, leadNames_object]

end CommonRules

namespace Conversion

variable {settings : SchemaSettings} {json : Json} {final : State}

theorem Complete.exists_ofText (complete : Complete settings json final)
    (typed : ¬(Schema.ofJson json).Uses (Schema.resolver json) (.types []))
    (flat : ∀ rule ∈ final.rules.toList, ∀ name ∈ rule.leadNames, name ∈ (CommonRules.all {}).map FragmentRule.name)
    (normalize : Bool) :
    ∃ grammar, Grammar.ofText ((final.allRules settings).flatMap FragmentRule.text) ⟨"root", normalize⟩ = .ok grammar := by
  have legible := complete.legible_iff.mpr typed
  refine FragmentRule.exists_ofText complete.closed
    (fun rule member => ⟨complete.spelled rule member, legible rule member⟩) CommonRules.rank ?_ normalize
  refine List.forall_mem_append.mpr ⟨CommonRules.rank_lt settings, fun rule own name leads => ?_⟩
  have apart : rule.name ∉ (CommonRules.all {}).map FragmentRule.name := by
    have distinct := complete.distinct
    rw [List.map_append] at distinct
    exact fun common => (List.nodup_append.mp distinct).2.2 _ common _ (List.mem_map_of_mem own) rfl
  have above : CommonRules.rank rule.name = 2 := by
    have other : rule.name ≠ "basic_any" := fun same => apart (by rw [same]; decide)
    rw [CommonRules.rank, if_neg other, if_neg apart]
  rw [above, CommonRules.rank, if_pos (flat rule own name leads)]
  split_ifs <;> decide

end Conversion

end GuidedDecoding
