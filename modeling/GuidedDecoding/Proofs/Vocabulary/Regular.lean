import Mathlib
import GuidedDecoding.Proofs.Search
import GuidedDecoding.Vocabulary.Basic

namespace GuidedDecoding.Vocabulary

theorem mem_regular {entries : List VocabularyEntry} {token : RegularToken} :
    token ∈ regular entries ↔
      ∃ e, entries[token.id]? = some e ∧ e.special = false ∧ e.decoded = token.bytes := by
  simp only [regular, List.mem_filterMap, Prod.exists, List.mk_mem_zipIdx_iff_getElem?]
  constructor
  · intro h
    obtain ⟨e, id, found, kept⟩ := h
    split at kept
    next => cases kept
    next regular =>
      cases kept
      exact ⟨e, found, Bool.eq_false_iff.mpr regular, rfl⟩
  · intro h
    obtain ⟨e, found, regular, same⟩ := h
    refine ⟨e, token.id, found, ?_⟩
    rw [regular, if_neg Bool.false_ne_true, same]

theorem mem_sorted {tokens : List (List UInt8)} {encoding : TokenEncoding} {leadingSpace : Bool}
    {v : Vocabulary} (built : (ofTokens tokens encoding leadingSpace).1 = .ok v) {token : RegularToken} :
    token ∈ v.sorted ↔
      ∃ e, v.entries[token.id]? = some e ∧ e.special = false ∧ e.decoded = token.bytes := by
  unfold ofTokens at built
  split at built
  next => cases built
  next =>
    cases built
    simp only [Std.TreeSet.mem_toList, Std.TreeSet.mem_ofList, List.contains_iff_mem, mem_regular,
      List.getElem?_toArray]

theorem decoded_ne_nil_of_entry? {encoding : TokenEncoding} {raw : List UInt8} {e : VocabularyEntry}
    (found : entry? encoding raw = some e) (regular : e.special = false) : e.decoded ≠ [] := by
  unfold entry? at found
  split at found
  next decoded _ =>
    cases found
    intro none
    simp only at none
    simp [none] at regular
  next =>
    cases found
    cases regular
  next => cases found

theorem decoded_ne_nil_of_readFrom (encoding : TokenEncoding) (tokens : List (List UInt8)) {done : Reading}
    (id : Nat) (before : ∀ e ∈ done.entries, e.special = false → e.decoded ≠ []) :
    ∀ e ∈ (readFrom encoding done id tokens).1.entries, e.special = false → e.decoded ≠ [] := by
  fun_induction readFrom encoding done id tokens with
  | case1 => exact before
  | case2 done id raw rest events entry found ih =>
    apply ih
    intro e member
    rcases List.mem_cons.mp member with rfl | member
    · exact decoded_ne_nil_of_entry? found
    · exact before e member
  | case3 => exact before

theorem decoded_ne_nil {tokens : List (List UInt8)} {encoding : TokenEncoding} {leadingSpace : Bool}
    {v : Vocabulary} (built : (ofTokens tokens encoding leadingSpace).1 = .ok v) {id : Nat}
    {e : VocabularyEntry} (found : v.entries[id]? = some e) (regular : e.special = false) :
    e.decoded ≠ [] := by
  unfold ofTokens at built
  split at built
  next => cases built
  next done none =>
    cases built
    have nothing : ∀ e ∈ Reading.entries ⟨[], ∅, []⟩, e.special = false → e.decoded ≠ [] := by simp
    have all := decoded_ne_nil_of_readFrom encoding tokens 0 nothing
    rw [none] at all
    apply all e _ regular
    rw [List.getElem?_toArray] at found
    exact List.mem_reverse.mp (List.mem_of_getElem? found)

end GuidedDecoding.Vocabulary
