import Mathlib
import GuidedDecoding.Proofs.Text.Blocks

namespace GuidedDecoding

theorem utf8EncodeChar_injective : Function.Injective String.utf8EncodeChar := by
  intro c d same
  have first := ByteArray.utf8DecodeChar?_utf8EncodeChar_append (b := .empty) (c := c)
  have second := ByteArray.utf8DecodeChar?_utf8EncodeChar_append (b := .empty) (c := d)
  rw [same, second] at first
  exact (Option.some.inj first).symm

namespace Utf8Zone

theorem lower_before {zone : Utf8Zone} {range : CodeRange} (before : zone.last < range.lo) :
    zone.lower range = [] := by
  unfold lower
  dsimp only
  rw [if_neg (by omega)]

theorem lower_behind {zone : Utf8Zone} {range : CodeRange} (behind : range.hi < zone.first) :
    zone.lower range = [] := by
  unfold lower
  dsimp only
  rw [if_neg (by omega)]

theorem lower_inside {zone : Utf8Zone} {lo hi : Nat} (first : zone.first ≤ lo) (last : hi ≤ zone.last)
    (ordered : lo ≤ hi) : zone.lower ⟨lo, hi⟩ = (blocks zone.trail lo hi).map zone.mark := by
  unfold lower
  dsimp only
  rw [Nat.max_eq_left first, Nat.min_eq_left last, if_pos ordered]

theorem mark_zip (zone : Utf8Zone) (lo hi : List Nat) :
    zone.mark (List.zip lo hi) =
      List.zipWith ByteRange.mk (zone.markNumbers lo) (zone.markNumbers hi) := by
  cases lo with
  | nil => rfl
  | cons low lows =>
    cases hi with
    | nil => rfl
    | cons high highs =>
      rw [List.zip_cons_cons, mark, markNumbers, markNumbers, List.zipWith_cons_cons,
        List.zipWith_map, List.zip, List.map_zipWith]

theorem all_ascending : all.Pairwise fun lower upper => lower.last < upper.first := by decide

theorem last_small {zone : Utf8Zone} (member : zone ∈ all) :
    zone.last ≤ 0x7F ∨ zone.last < 64 ^ (zone.trail + 1) := by
  revert zone
  decide

end Utf8Zone

namespace CodeRange

open Utf8Zone (all)

theorem toUtf8_none {lo hi : Nat} (none : hi < lo) : toUtf8 ⟨lo, hi⟩ = [] := by
  rw [toUtf8, List.flatMap_eq_nil_iff]
  intro zone _
  unfold Utf8Zone.lower
  dsimp only
  rw [if_neg (by omega)]

theorem toUtf8_between (below above : List Utf8Zone) (zones : all = below ++ above) {lo hi last next : Nat}
    (border : last < next) (lower : ∀ zone ∈ below, zone.last ≤ last)
    (upper : ∀ zone ∈ above, next ≤ zone.first) (after : lo ≤ next) (before : last ≤ hi) :
    toUtf8 ⟨lo, hi⟩ = toUtf8 ⟨lo, last⟩ ++ toUtf8 ⟨next, hi⟩ := by
  have lowest : below.flatMap (·.lower ⟨next, hi⟩) = [] := by
    rw [List.flatMap_eq_nil_iff]
    intro zone member
    exact Utf8Zone.lower_before (Nat.lt_of_le_of_lt (lower zone member) border)
  have highest : above.flatMap (·.lower ⟨lo, last⟩) = [] := by
    rw [List.flatMap_eq_nil_iff]
    intro zone member
    exact Utf8Zone.lower_behind (Nat.lt_of_lt_of_le border (upper zone member))
  have lows : below.flatMap (·.lower ⟨lo, hi⟩) = below.flatMap (·.lower ⟨lo, last⟩) := by
    apply List.flatMap_congr
    intro zone member
    have within := lower zone member
    simp only [Utf8Zone.lower, Nat.min_eq_right within, Nat.min_eq_right (Nat.le_trans within before)]
  have highs : above.flatMap (·.lower ⟨lo, hi⟩) = above.flatMap (·.lower ⟨next, hi⟩) := by
    apply List.flatMap_congr
    intro zone member
    have within := upper zone member
    simp only [Utf8Zone.lower, Nat.max_eq_right within, Nat.max_eq_right (Nat.le_trans after within)]
  rw [toUtf8, toUtf8, toUtf8, zones, List.flatMap_append, List.flatMap_append, List.flatMap_append,
    lowest, highest, lows, highs, List.append_nil, List.nil_append]

theorem toUtf8_zone {zone : Utf8Zone} (member : zone ∈ all) {lo hi : Nat} (first : zone.first ≤ lo)
    (last : hi ≤ zone.last) (ordered : lo ≤ hi) :
    toUtf8 ⟨lo, hi⟩ = (Utf8Zone.blocks zone.trail lo hi).map zone.mark := by
  rw [← Utf8Zone.lower_inside first last ordered]
  have ascending := Utf8Zone.all_ascending
  obtain ⟨below, above, zones⟩ := List.append_of_mem member
  rw [zones, List.pairwise_append, List.pairwise_cons] at ascending
  obtain ⟨_, ⟨upper, _⟩, lower⟩ := ascending
  have lowest : below.flatMap (·.lower ⟨lo, hi⟩) = [] := by
    rw [List.flatMap_eq_nil_iff]
    intro other inside
    have apart := lower other inside zone List.mem_cons_self
    exact Utf8Zone.lower_before (Nat.lt_of_lt_of_le apart first)
  have highest : above.flatMap (·.lower ⟨lo, hi⟩) = [] := by
    rw [List.flatMap_eq_nil_iff]
    intro other inside
    exact Utf8Zone.lower_behind (Nat.lt_of_le_of_lt last (upper other inside))
  rw [toUtf8, zones, List.flatMap_append, List.flatMap_cons, lowest, highest, List.nil_append,
    List.append_nil]

/-- A cut at the border of a block that is entered or left in its middle. -/
theorem toUtf8_cut {zone : Utf8Zone} (member : zone ∈ all) {size lo hi next : Nat}
    (first : zone.first ≤ lo) (last : hi ≤ zone.last) (inside : 0 < size ∧ size ≤ zone.trail)
    (border : 64 ^ size ∣ next) (after : lo < next) (before : next ≤ hi)
    (near : next < lo + 64 ^ size ∨ hi + 1 < next + 64 ^ size) :
    toUtf8 ⟨lo, hi⟩ = toUtf8 ⟨lo, next - 1⟩ ++ toUtf8 ⟨next, hi⟩ := by
  rw [toUtf8_zone member first last (by omega), toUtf8_zone member first (by omega) (by omega),
    toUtf8_zone member (by omega) last before, Utf8Zone.blocks_cut inside border after before near,
    List.map_append]

theorem toUtf8_uncut {zone : Utf8Zone} (member : zone ∈ all) {lo hi : Char}
    (first : zone.first ≤ lo.toNat) (last : hi.toNat ≤ zone.last) (ordered : lo.toNat ≤ hi.toNat)
    (uncut : ∀ size, 0 < size → size ≤ zone.trail →
      lo.toNat / 64 ^ size = hi.toNat / 64 ^ size ∨
        64 ^ size ∣ lo.toNat ∧ 64 ^ size ∣ hi.toNat + 1) :
    toUtf8 ⟨lo.toNat, hi.toNat⟩ =
      [List.zipWith ByteRange.mk (String.utf8EncodeChar lo) (String.utf8EncodeChar hi)] := by
  rw [toUtf8_zone member first last ordered, Utf8Zone.blocks_uncut uncut ordered, List.map_singleton,
    Utf8Zone.mark_zip, ← Utf8Zone.encode_eq member lo ⟨first, by omega⟩,
    ← Utf8Zone.encode_eq member hi ⟨by omega, last⟩]
  rfl

def Apart (s t : List ByteRange) : Prop :=
  ∀ bytes, ByteRange.matchAll s bytes = true → ¬ByteRange.matchAll t bytes = true

theorem exists_char_of_block {zone : Utf8Zone} (member : zone ∈ all) {lo hi : Nat}
    (first : zone.first ≤ lo) (last : hi ≤ zone.last) (ordered : lo ≤ hi) {sequence : List (Nat × Nat)}
    (block : sequence ∈ Utf8Zone.blocks zone.trail lo hi) {bytes : List UInt8}
    (matched : ByteRange.matchAll (zone.mark sequence) bytes = true) :
    ∃ c : Char, Utf8Zone.Matches sequence (Utf8Zone.digits zone.trail c.toNat) ∧
      String.utf8EncodeChar c = bytes := by
  have bound := Utf8Zone.marker_bound member
  have heads : hi / 64 ^ zone.trail ≤ zone.last / 64 ^ zone.trail := Nat.div_le_div_right last
  obtain ⟨lead, rest, rfl, leading, digits⟩ := Utf8Zone.blocks_shape _ _ _ ordered block
  obtain ⟨numbers, inside, rfl⟩ :=
    (Utf8Zone.matchAll_mark zone lead rest (by omega) leading.1 digits bytes).mp matched
  obtain ⟨n, between, rfl⟩ := (Utf8Zone.matches_blocks _ _ _ ordered numbers).mp ⟨_, block, inside⟩
  have zoned : zone.first ≤ n ∧ n ≤ zone.last := by omega
  obtain ⟨c, rfl⟩ := Utf8Zone.exists_char member zoned
  exact ⟨c, inside, (Utf8Zone.encode_eq member c zoned).symm⟩

theorem lower_apart {zone : Utf8Zone} (member : zone ∈ all) (range : CodeRange) :
    (zone.lower range).Pairwise Apart := by
  unfold Utf8Zone.lower
  dsimp only
  split
  next room =>
    have low := Nat.le_max_right range.lo zone.first
    have high := Nat.min_le_right range.hi zone.last
    refine List.pairwise_map.mpr ((Utf8Zone.blocks_apart zone.trail room).imp_of_mem ?_)
    intro s t first second apart bytes left right
    obtain ⟨c, here, rfl⟩ := exists_char_of_block member low high room first left
    obtain ⟨d, there, same⟩ := exists_char_of_block member low high room second right
    obtain rfl := utf8EncodeChar_injective same
    exact apart _ here there
  next none => exact .nil

theorem toUtf8_apart (range : CodeRange) : range.toUtf8.Pairwise Apart := by
  refine List.pairwise_flatMap.mpr ⟨fun zone member => lower_apart member range, ?_⟩
  refine Utf8Zone.all_ascending.imp_of_mem ?_
  intro lower upper first second ascending s below t above bytes left right
  obtain ⟨n, _, low, rfl⟩ := (Utf8Zone.lower_matches first range bytes).mp ⟨s, below, left⟩
  obtain ⟨m, _, high, same⟩ := (Utf8Zone.lower_matches second range _).mp ⟨t, above, right⟩
  obtain ⟨c, rfl⟩ := Utf8Zone.exists_char first low
  obtain ⟨d, rfl⟩ := Utf8Zone.exists_char second high
  rw [Utf8Zone.encode_eq first c low, Utf8Zone.encode_eq second d high] at same
  obtain rfl := utf8EncodeChar_injective same
  omega

theorem lowered_apart (ranges : List CodeRange) (negated : Bool) :
    ((canonical ranges negated).flatMap toUtf8).Pairwise Apart := by
  refine List.pairwise_flatMap.mpr ⟨fun range _ => toUtf8_apart range, ?_⟩
  refine (canonical_separated ranges negated).ascending.imp ?_
  intro r r' ascending s below t above bytes left right
  obtain ⟨c, low, rfl⟩ := (toUtf8_matches r bytes).mp ⟨s, below, left⟩
  obtain ⟨d, high, same⟩ := (toUtf8_matches r' _).mp ⟨t, above, right⟩
  obtain rfl := utf8EncodeChar_injective same
  have := low.2
  have := high.1
  omega

theorem countP_apart {sequences : List (List ByteRange)} (apart : sequences.Pairwise Apart)
    {bytes : List UInt8} (matched : ∃ sequence ∈ sequences, ByteRange.matchAll sequence bytes = true) :
    sequences.countP (ByteRange.matchAll · bytes) = 1 := by
  obtain ⟨sequence, member, here⟩ := matched
  obtain ⟨before, after, rfl⟩ := List.append_of_mem member
  rw [List.pairwise_append, List.pairwise_cons] at apart
  obtain ⟨_, ⟨later, _⟩, earlier⟩ := apart
  have none : before.countP (ByteRange.matchAll · bytes) = 0 := by
    rw [List.countP_eq_zero]
    intro other inside
    exact fun there => earlier other inside sequence List.mem_cons_self bytes there here
  have rest : after.countP (ByteRange.matchAll · bytes) = 0 := by
    rw [List.countP_eq_zero]
    intro other inside
    exact later other inside bytes here
  rw [List.countP_append, List.countP_cons, if_pos here, none, rest]

end CodeRange
end GuidedDecoding
