import Mathlib
import GuidedDecoding.Proofs.Schema.Denotation

open scoped Computability

namespace GuidedDecoding

open Fragment (Sequence denotesSequence denotesAlternatives)

/-- The languages that the texts of a rule are promised to belong to. -/
structure Promises where
  made : String → Language Char → Prop
  named : ∀ {name language}, made name language → Token.IsName name

namespace Promises

instance : Preorder Promises where
  le promises more := ∀ name language, promises.made name language → more.made name language
  le_refl _ _ _ := id
  le_trans _ _ _ first second name language made := second name language (first name language made)

def Kept (promises : Promises) (sets : String → Language Char) : Prop :=
  ∀ name language, promises.made name language → sets name ≤ language

/-- Pieces that can be read, and match only texts of a language as long as the promises are kept. -/
structure Writes (promises : Promises) (pieces : Sequence) (language : Language Char) : Prop where
  spelled : ∀ f ∈ pieces, f.Spelled
  within : ∀ sets, promises.Kept sets → denotesSequence sets pieces ≤ language

def WritesAll (promises : Promises) (alternatives : List Sequence) (language : Language Char) : Prop :=
  ∀ pieces ∈ alternatives, promises.Writes pieces language

section

variable {promises more : Promises} {pieces : Sequence} {f : Fragment} {language wider : Language Char}

theorem Writes.le (writes : promises.Writes pieces language) (le : language ≤ wider) : promises.Writes pieces wider where
  spelled := writes.spelled
  within sets kept := (writes.within sets kept).trans le

theorem Writes.mono (writes : promises.Writes pieces language) (le : promises ≤ more) : more.Writes pieces language where
  spelled := writes.spelled
  within sets kept := writes.within sets fun name language made => kept name language (le name language made)

theorem writes_nil : promises.Writes [] 1 where
  spelled := by simp
  within _ _ := le_refl 1

theorem Writes.append {others : Sequence} {other : Language Char} (first : promises.Writes pieces language)
    (second : promises.Writes others other) : promises.Writes (pieces ++ others) (language * other) where
  spelled f member := (List.mem_append.mp member).elim (first.spelled f) (second.spelled f)
  within sets kept := by
    rw [Fragment.denotesSequence_append]
    exact mul_le_mul' (first.within sets kept) (second.within sets kept)

theorem Writes.cons {others : Sequence} {other : Language Char} (first : promises.Writes [f] language)
    (second : promises.Writes others other) : promises.Writes (f :: others) (language * other) := first.append second

theorem writes_singleton (spelled : f.Spelled) (within : ∀ sets, promises.Kept sets → f.denotes sets ≤ language) :
    promises.Writes [f] language where
  spelled g member := by rwa [List.mem_singleton.mp member]
  within sets kept := by
    rw [Fragment.denotesSequence_cons, Fragment.denotesSequence_nil, mul_one]
    exact within sets kept

theorem Writes.piece (writes : promises.Writes [f] language) :
    f.Spelled ∧ ∀ sets, promises.Kept sets → f.denotes sets ≤ language := by
  refine ⟨writes.spelled f (List.mem_singleton_self f), fun sets kept => ?_⟩
  have within := writes.within sets kept
  rwa [Fragment.denotesSequence_cons, Fragment.denotesSequence_nil, mul_one] at within

theorem writes_ofText {text : List Char} (member : text ∈ language) : promises.Writes [.ofText text] language := by
  apply writes_singleton (Fragment.spelled_ofText text)
  intro sets _
  rw [Fragment.denotes_ofText]
  exact Set.singleton_subset_iff.mpr member

theorem writes_exactly (text : List Char) : promises.Writes [.ofText text] {text} := writes_ofText rfl

theorem writes_class {inside : String} {p : Char → Prop} (isClass : Fragment.IsClass inside p) :
    promises.Writes [.charClass inside] (JsonSyntax.oneOf p) :=
  writes_singleton isClass.spelled fun sets _ => (isClass.denotes sets).le

theorem writes_rule {name : String} (made : promises.made name language) : promises.Writes [.rule name] language := by
  apply writes_singleton (Fragment.spelled_rule.mpr (promises.named made))
  intro sets kept
  rw [Fragment.denotes_rule]
  exact kept name language made

theorem Writes.all (writes : promises.Writes pieces language) : promises.WritesAll [pieces] language :=
  List.forall_mem_singleton.mpr writes

theorem WritesAll.group {alternatives : List Sequence} (writes : promises.WritesAll alternatives language) :
    promises.Writes [.group alternatives] language := by
  apply writes_singleton (Fragment.spelled_group.mpr fun pieces member => (writes pieces member).spelled)
  intro sets kept
  rw [Fragment.denotes_group]
  exact Fragment.denotesAlternatives_le sets fun pieces member => (writes pieces member).within sets kept

theorem Writes.optional (writes : promises.Writes [f] language) : promises.Writes [.optional f] (1 + language) := by
  apply writes_singleton (Fragment.spelled_optional.mpr writes.piece.1)
  intro sets kept
  rw [Fragment.denotes_optional]
  exact add_le_add le_rfl (writes.piece.2 sets kept)

theorem Writes.many (writes : promises.Writes [f] language) : promises.Writes [.many f] language∗ := by
  apply writes_singleton (Fragment.spelled_many.mpr writes.piece.1)
  intro sets kept
  rw [Fragment.denotes_many]
  exact kstar_mono (writes.piece.2 sets kept)

theorem Writes.bounded (writes : promises.Writes [f] language) (min : Nat) (max : Option Nat) :
    promises.Writes [.bounded f min max] language∗ := by
  have spelled : (Fragment.bounded f min max).Spelled := by
    unfold Fragment.bounded
    split_ifs
    · exact Fragment.spelled_ofText []
    · exact Fragment.spelled_repeated.mpr writes.piece.1
  apply writes_singleton spelled
  intro sets kept
  exact (Fragment.denotes_bounded_le sets f min max).trans (kstar_mono (writes.piece.2 sets kept))

end

/-- Pieces that rely on no promise match only texts of the language, whatever the rules match. -/
theorem denotesSequence_le {pieces : Sequence} {language : Language Char}
    (writes : ∀ promises : Promises, promises.Writes pieces language) (rules : String → Language Char) :
    denotesSequence rules pieces ≤ language :=
  (writes ⟨fun _ _ => False, False.elim⟩).within rules fun _ _ => False.elim

/-- Every promise is one that a rule of the promised name keeps if all promises are kept. -/
def KeptBy (promises : Promises) (rules : List FragmentRule) : Prop :=
  ∀ name language, promises.made name language →
    ∃ rule ∈ rules, rule.name = name ∧ promises.WritesAll rule.alternatives language

theorem KeptBy.texts {promises : Promises} {rules : List FragmentRule} (kept : promises.KeptBy rules)
    (distinct : (rules.map FragmentRule.name).Nodup) :
    promises.Kept (Definition.texts (rules.map FragmentRule.definition)) := by
  let sets (name : String) : Language Char := {text | ∀ language, promises.made name language → text ∈ language}
  have keeps : promises.Kept sets := fun name language made text member => member language made
  have least : Definition.texts (rules.map FragmentRule.definition) ≤ sets := by
    apply FragmentRule.texts_le
    intro rule member text matched language made
    obtain ⟨other, among, same, writes⟩ := kept rule.name language made
    obtain rfl := List.inj_on_of_nodup_map distinct among member same
    exact Fragment.denotesAlternatives_le sets (fun pieces inside => (writes pieces inside).within sets keeps) matched
  exact fun name language made => (least name).trans (keeps name language made)

end Promises

end GuidedDecoding
