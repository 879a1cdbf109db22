import Mathlib
import GuidedDecoding.Proofs.Json.Values
import GuidedDecoding.Proofs.Schema.Wording

open scoped Computability

namespace GuidedDecoding

open Fragment (Sequence denotes denotesSequence denotesAlternatives)
open JsonSyntax (isSpace visible visible_mul_right singleton_le_visible)

namespace Layout

theorem inEmpty_le_blanks (settings : SchemaSettings) (depth : Nat) (rules : String → Language Char) :
    (settings.layout depth).inEmpty.denotes rules ≤ JsonSyntax.blanks isSpace := by
  have none : denotes rules .empty ≤ JsonSyntax.blanks isSpace := by
    rw [Fragment.denotes_empty]
    exact one_le_kstar
  have some := Promises.denotesSequence_le writes_blanks rules
  rw [Fragment.denotesSequence_singleton] at some
  unfold SchemaSettings.layout
  dsimp only
  split_ifs
  · exact some
  · split <;> exact none

theorem notMem_bare {settings : SchemaSettings} {depth : Nat} {rules : String → Language Char} {left right : Char}
    {inside : Language Char} (shown : inside ≤ visible) {text : List Char}
    (enclosed : text ∈ (settings.layout depth).enclosed rules left right inside) :
    text ∉ (settings.layout depth).bare rules left right := by
  rintro ⟨_, ⟨_, rfl, gap, empty, rfl⟩, _, rfl, same⟩
  obtain ⟨_, ⟨_, ⟨_, ⟨_, rfl, opening, _, rfl⟩, content, among, rfl⟩, closing, _, rfl⟩, _, rfl, rfl⟩ := enclosed
  have same : gap ++ [right] = opening ++ content ++ closing ++ [right] := by simpa using same
  have same := List.append_cancel_right same
  obtain ⟨c, member, visible⟩ := shown among
  exact visible (JsonSyntax.mem_blanks.mp (inEmpty_le_blanks settings depth rules empty) c (by simp [same, member]))

theorem joined_le_visible {layout : Layout} {rules : String → Language Char} {items : List (Language Char)}
    (some : items ≠ []) (shown : ∀ item ∈ items, item ≤ visible) : layout.joined rules items ≤ visible := by
  obtain ⟨item, items, rfl⟩ := List.exists_cons_of_ne_nil some
  rw [joined_cons]
  exact visible_mul_right (shown item (by simp))

theorem pairs_le_visible {layout : Layout} {rules : String → Language Char} {key value : Language Char}
    (shown : key ≤ visible) : layout.pairs rules key value ≤ visible :=
  visible_mul_right (visible_mul_right shown)

end Layout

def JsonSyntax.visibleWording : Wording where
  value := visible
  member := visible
  comma := ⊤
  items := visible
  members := visible
  whole := visible

section

variable {promises : Promises}

theorem Promises.writes_top {pieces : Sequence} (readable : ∀ f ∈ pieces, f.Readable) : promises.Writes pieces ⊤ :=
  ⟨fun f member => (readable f member).1, fun _ _ => le_top⟩

theorem Promises.writes_opened {sign : Char} (shown : ¬isSpace sign) {rest : Sequence} {language : Language Char}
    (writes : promises.Writes rest language) : promises.Writes (.ofText [sign] :: rest) visible :=
  ((Promises.writes_exactly [sign]).cons writes).le
    (visible_mul_right (singleton_le_visible (List.mem_singleton_self sign) shown))

end

theorem Layout.Readable.words {layout : Layout} (laid : layout.Readable) : layout.Words JsonSyntax.visibleWording := by
  have lists : Lists visible ⊤ visible := ⟨le_rfl, visible_mul_right le_rfl, visible_mul_right le_rfl⟩
  have piece {promises : Promises} {f : Fragment} (readable : f.Readable) : promises.Writes [f] ⊤ :=
    Promises.writes_top (List.forall_mem_singleton.mpr readable)
  have enclosed {promises : Promises} {inside : Sequence} {left right : Char} (shown : ¬isSpace left)
      (list : promises.Writes inside visible) :
      promises.Writes ([.ofText [left]] ++ layout.opening :: inside ++ [layout.closing, .ofText [right]]) visible :=
    Promises.writes_opened shown (((piece laid.opening).cons list).append
      ((piece laid.closing).cons (Promises.writes_exactly [right])))
  have bare (promises : Promises) {left right : Char} (shown : ¬isSpace left) :
      promises.Writes [.ofText [left], layout.inEmpty, .ofText [right]] visible :=
    Promises.writes_opened shown ((piece laid.inEmpty).cons (Promises.writes_exactly [right]))
  have bracket : ¬isSpace '[' := by simp [isSpace]
  have brace : ¬isSpace '\x7b' := by simp [isSpace]
  exact {
    items := lists
    members := lists
    between := fun _ => Promises.writes_top laid.between
    pair := fun named valued => (((named.le JsonSyntax.string_le_visible).append (Promises.writes_top laid.keyValue)).append
      valued).le (visible_mul_right (visible_mul_right le_rfl))
    arrayOf := enclosed bracket
    emptyArray := fun promises => bare promises bracket
    objectOf := enclosed brace
    emptyObject := fun promises => bare promises brace }

theorem SchemaSettings.words_visible (settings : SchemaSettings) : settings.Words fun _ => JsonSyntax.visibleWording where
  layout depth := (settings.readable_layout depth).words
  deeper _ := rfl
  common := {
    scalar := by
      rintro _ ⟨_, rfl⟩
      exact add_le (add_le (add_le JsonSyntax.string_le_visible JsonSyntax.number_le_visible) JsonSyntax.boolean_le_visible)
        JsonSyntax.null_le_visible
    nested := by
      rintro _ ⟨depth, rfl⟩
      exact ⟨_, settings.readable_inlineLayout.words, rfl, depth, rfl⟩ }
  text _ value := JsonSyntax.value_le_visible isSpace (value.derives_text isSpace)

namespace Conversion.Complete

variable {settings : SchemaSettings} {json : Json} {final : State} (complete : Complete settings json final)
include complete

theorem any_le_visible : final.texts settings "basic_any" ≤ visible :=
  (complete.placed settings.words_visible).any_le complete.distinct 0

theorem body_le_visible {depth : Nat} {schema : Schema} {body : Sequence} (renders : Renders settings final depth schema body) :
    denotesSequence (final.texts settings) body ≤ visible :=
  (complete.placed settings.words_visible).body_le complete.distinct renders trivial

end Conversion.Complete

end GuidedDecoding
