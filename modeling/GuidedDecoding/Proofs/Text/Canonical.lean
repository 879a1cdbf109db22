import Mathlib
import GuidedDecoding.Text.Merging
import GuidedDecoding.Proofs.Text.Splitting

namespace GuidedDecoding
namespace CodeRange

section First

variable {next start : Nat} {r s : CodeRange} {rest others : List CodeRange}

theorem SeparatedFrom.covers_rest_iff (separated : SeparatedFrom next (r :: rest)) (n : Nat) :
    Covers rest n ↔ Covers (r :: rest) n ∧ r.hi < n := by
  obtain ⟨_, _, _, later⟩ := separated
  rw [covers_cons]
  constructor
  · intro covered
    have := later.le_of_covers covered
    exact ⟨.inr covered, by omega⟩
  · intro h
    obtain ⟨inside | covered, behind⟩ := h
    · omega
    · exact covered

theorem SeparatedFrom.not_covers_behind (separated : SeparatedFrom next (r :: rest)) :
    ¬Covers (r :: rest) (r.hi + 1) := by
  intro covered
  have later := (separated.covers_rest_iff _).mpr ⟨covered, Nat.lt_succ_self _⟩
  have := separated.2.2.2.le_of_covers later
  omega

theorem SeparatedFrom.first_le (separated : SeparatedFrom next (r :: rest))
    (narrow : SeparatedFrom start (s :: others))
    (within : ∀ n, Covers (s :: others) n → Covers (r :: rest) n) :
    r.lo ≤ s.lo ∧ (r.lo = s.lo → s.hi ≤ r.hi) := by
  have ordered := narrow.2.1
  have covered (n : Nat) (above : s.lo ≤ n) (below : n ≤ s.hi) : Covers (r :: rest) n :=
    within n ((covers_cons s others n).mpr (.inl ⟨above, below⟩))
  constructor
  · have first : SeparatedFrom r.lo (r :: rest) := ⟨Nat.le_refl _, separated.2⟩
    exact first.le_of_covers (covered s.lo (Nat.le_refl _) ordered)
  · intro together
    have ahead := separated.2.1
    by_contra shorter
    exact separated.not_covers_behind (covered (r.hi + 1) (by omega) (by omega))

end First

theorem SeparatedFrom.exists_covers {next : Nat} {r : CodeRange} {rest : List CodeRange}
    (separated : SeparatedFrom next (r :: rest)) : ∃ n, Covers (r :: rest) n :=
  ⟨r.lo, (covers_cons r rest r.lo).mpr (.inl ⟨Nat.le_refl _, separated.2.1⟩)⟩

/-- A list whose members are separated is determined by its code points. -/
theorem SeparatedFrom.eq_of_covers {next start : Nat} {ranges others : List CodeRange}
    (separated : SeparatedFrom next ranges) (separated' : SeparatedFrom start others)
    (same : ∀ n, Covers ranges n ↔ Covers others n) : ranges = others := by
  induction ranges generalizing next start others with
  | nil =>
    cases others with
    | nil => rfl
    | cons s later =>
      obtain ⟨n, covered⟩ := separated'.exists_covers
      exact absurd ((same n).mpr covered) (by simp)
  | cons r rest ih =>
    cases others with
    | nil =>
      obtain ⟨n, covered⟩ := separated.exists_covers
      exact absurd ((same n).mp covered) (by simp)
    | cons s later =>
      obtain ⟨before, shorter⟩ := separated.first_le separated' fun n => (same n).mpr
      obtain ⟨behind, longer⟩ := separated'.first_le separated fun n => (same n).mp
      have lo : r.lo = s.lo := Nat.le_antisymm before behind
      have hi : r.hi = s.hi := Nat.le_antisymm (longer lo.symm) (shorter lo)
      have first : r = s := by
        rw [CodeRange.mk.injEq]
        exact ⟨lo, hi⟩
      subst first
      rw [ih separated.2.2.2 separated'.2.2.2]
      intro n
      rw [separated.covers_rest_iff, separated'.covers_rest_iff, same]

theorem covers_canonical_iff (ranges : List CodeRange) (negated : Bool) (n : Nat) :
    Covers (canonical ranges negated) n ↔
      n ≤ maxCodePoint ∧ (CoversSwapped ranges n ↔ negated = false) := by
  constructor
  · intro covered
    obtain ⟨r, member, inside⟩ := covered
    have point := inside.2.trans ((canonical_separated ranges negated).bounded member).2
    exact ⟨point, (covers_canonical ranges negated n point).mp ⟨r, member, inside⟩⟩
  · intro h
    exact (covers_canonical ranges negated n h.1).mpr h.2

theorem canonical_eq_iff (ranges others : List CodeRange) (negated : Bool) :
    canonical others negated = canonical ranges negated ↔
      ∀ n ≤ maxCodePoint, CoversSwapped others n ↔ CoversSwapped ranges n := by
  constructor
  · intro same n point
    have covered := covers_canonical others negated n point
    rw [same, covers_canonical ranges negated n point] at covered
    cases negated <;> grind
  · intro same
    apply (canonical_separated others negated).eq_of_covers (canonical_separated ranges negated)
    intro n
    rw [covers_canonical_iff, covers_canonical_iff]
    exact and_congr_right fun point => by rw [same n point]

theorem coversSwapped_of_ordered {ranges : List CodeRange} (ordered : ∀ r ∈ ranges, r.lo ≤ r.hi) (n : Nat) :
    CoversSwapped ranges n ↔ Covers ranges n := by
  refine exists_congr fun r => and_congr_right fun member => ?_
  rw [mem_iff, Nat.min_eq_left (ordered r member), Nat.max_eq_right (ordered r member)]

theorem canonical_complement (ranges : List CodeRange) (negated : Bool) :
    canonical (canonical ranges negated) true = canonical ranges (!negated) := by
  have separated := canonical_separated ranges negated
  apply (canonical_separated _ true).eq_of_covers (canonical_separated ranges (!negated))
  intro n
  rw [covers_canonical_iff, covers_canonical_iff,
    coversSwapped_of_ordered fun r member => (separated.bounded member).1, covers_canonical_iff]
  cases negated <;> grind

end CodeRange

theorem toNat_max (a b : UInt32) : (max a b).toNat = max a.toNat b.toNat := by
  change (if a ≤ b then b else a).toNat = _
  rw [apply_ite UInt32.toNat, Nat.max_def]
  simp only [UInt32.le_iff_toNat_le]

theorem le_saturatingAdd_one_iff (a b : UInt32) : a ≤ saturatingAdd b 1 ↔ a.toNat ≤ b.toNat + 1 := by
  have small : a.toNat < UInt32.size := a.toNat_lt
  rw [UInt32.le_iff_toNat_le, saturatingAdd]
  by_cases fits : b.toNat + (1 : UInt32).toNat < UInt32.size
  · obtain ⟨sum, defined, value⟩ := checkedAdd_eq fits
    rw [defined, Option.getD_some, value]
    rfl
  · rw [checkedAdd, if_neg fits, Option.getD_none]
    have one : (1 : UInt32).toNat = 1 := rfl
    have largest : (0xFFFFFFFF : UInt32).toNat + 1 = UInt32.size := rfl
    omega

namespace Stretch

open CodeRange (maxCodePoint prepared join joinFrom gapsFrom)

theorem range_clamp (stretch : Stretch) : stretch.clamp.range = stretch.range.clamp := by
  rw [clamp, range, range, CodeRange.clamp, Splitting.toNat_min, Splitting.toNat_min, toNat_max]
  rfl

theorem precedes_iff (earlier later : Stretch) :
    precedes earlier later = true ↔ earlier.start.toNat < later.start.toNat ∨
      earlier.start.toNat = later.start.toNat ∧ earlier.stop.toNat ≤ later.stop.toNat := by
  simp [precedes, UInt32.lt_iff_toNat_lt, UInt32.le_iff_toNat_le, UInt32.toNat_inj]

theorem arranged_sorted (stretches : List Stretch) :
    ((arranged stretches).map range).Pairwise fun r s => r.lo ≤ s.lo := by
  have sorted : (arranged stretches).Pairwise fun earlier later => precedes earlier later = true := by
    apply List.pairwise_mergeSort
    · intro a b c first second
      rw [precedes_iff] at *
      omega
    · intro a b
      rw [Bool.or_eq_true, precedes_iff, precedes_iff]
      omega
  rw [List.pairwise_map]
  apply sorted.imp
  intro earlier later before
  rw [precedes_iff] at before
  change earlier.start.toNat ≤ later.start.toNat
  omega

theorem mem_arranged (stretches : List Stretch) (r : CodeRange) :
    r ∈ (arranged stretches).map range ↔ r ∈ prepared (stretches.map range) := by
  rw [CodeRange.mem_prepared]
  simp only [arranged, List.mem_map, List.mem_mergeSort, List.mem_filter, decide_eq_true_iff,
    UInt32.le_iff_toNat_le]
  constructor
  · intro h
    obtain ⟨_, ⟨⟨stretch, member, rfl⟩, low⟩, rfl⟩ := h
    exact ⟨low, stretch.range, ⟨stretch, member, rfl⟩, stretch.range_clamp.symm⟩
  · intro h
    obtain ⟨low, _, ⟨stretch, member, rfl⟩, rfl⟩ := h
    rw [← range_clamp] at low ⊢
    exact ⟨stretch.clamp, ⟨⟨stretch, member, rfl⟩, low⟩, rfl⟩

theorem foldl_mergeOnto (stretches earlier : List Stretch) (last : Stretch) :
    (stretches.foldl mergeOnto (last :: earlier)).reverse.map range =
      earlier.reverse.map range ++ joinFrom last.range (stretches.map range) := by
  induction stretches generalizing earlier last with
  | nil => simp [joinFrom]
  | cons stretch rest ih =>
    have touches := le_saturatingAdd_one_iff stretch.start last.stop
    rw [List.foldl_cons, mergeOnto, List.map_cons, joinFrom]
    by_cases touching : stretch.range.lo ≤ last.range.hi + 1
    · rw [if_pos (touches.mpr touching), if_pos touching, ih, range, toNat_max]
      rfl
    · rw [if_neg (mt touches.mp touching), if_neg touching, ih, List.reverse_cons, List.map_append,
        List.append_assoc]
      rfl

theorem merged_eq (stretches : List Stretch) :
    (merged stretches).map range = join (prepared (stretches.map range)) := by
  have proper : ∀ r ∈ (arranged stretches).map range, r.lo ≤ r.hi ∧ r.hi ≤ maxCodePoint := by
    intro r member
    exact CodeRange.prepared_proper _ r ((mem_arranged stretches r).mp member)
  have joined : (merged stretches).map range = join ((arranged stretches).map range) := by
    rw [merged]
    cases arranged stretches with
    | nil => rfl
    | cons stretch rest => exact foldl_mergeOnto rest [] stretch
  have sorted := arranged_sorted stretches
  have sorted' := CodeRange.prepared_sorted (stretches.map range)
  rw [joined]
  -- A stretch may stand among the sorted words twice, so the lists that are joined need not be the same.
  apply (CodeRange.join_separated sorted proper).eq_of_covers
    (CodeRange.join_separated sorted' (CodeRange.prepared_proper _))
  intro n
  rw [CodeRange.covers_join sorted, CodeRange.covers_join sorted']
  exact exists_congr fun r => and_congr_left fun _ => mem_arranged stretches r

theorem exists_gaps? (next : UInt32) {stretches : List Stretch} (bounded : Bounded stretches) :
    ∃ gaps, gaps? next stretches = some gaps ∧
      gaps.map range = gapsFrom next.toNat (stretches.map range) := by
  induction stretches generalizing next with
  | nil =>
    have within : next ≤ 0x10FFFF ↔ next.toNat ≤ maxCodePoint := UInt32.le_iff_toNat_le
    refine ⟨_, rfl, ?_⟩
    rw [List.map_nil, gapsFrom]
    by_cases room : next ≤ 0x10FFFF
    · rw [if_pos room, if_pos (within.mp room)]
      rfl
    · rw [if_neg room, if_neg (mt within.mpr room)]
      rfl
  | cons stretch rest ih =>
    obtain ⟨here, others⟩ := List.forall_mem_cons.mp bounded
    have below : next < stretch.start ↔ next.toNat < stretch.range.lo := UInt32.lt_iff_toNat_lt
    have fits : maxCodePoint + 1 < UInt32.size := by decide
    obtain ⟨behind, sum, value⟩ := checkedAdd_eq (a := stretch.stop) (b := 1) (by
      change _ + 1 < _
      omega)
    change behind.toNat = stretch.range.hi + 1 at value
    obtain ⟨gaps, defined, same⟩ := ih behind others
    rw [value] at same
    rw [gaps?, sum, Option.bind_some, List.map_cons, gapsFrom]
    by_cases before : next < stretch.start
    · have room := below.mp before
      obtain ⟨last, difference, ends⟩ := checkedSub_eq (a := stretch.start) (b := 1) (by
        change 1 ≤ stretch.range.lo
        omega)
      refine ⟨⟨next, last⟩ :: gaps, ?_, ?_⟩
      · rw [if_pos before, difference, Option.bind_some, defined, Option.map_some]
      · rw [if_pos room, List.map_cons, same, range, ends]
        rfl
    · refine ⟨gaps, ?_, ?_⟩
      · rw [if_neg before, defined]
      · rw [if_neg (mt below.mpr before), same]

theorem exists_canonical? (stretches : List Stretch) (negated : Bool) :
    ∃ parts, canonical? stretches negated = some parts ∧
      parts.map range = CodeRange.canonical (stretches.map range) negated := by
  have inside := merged_eq stretches
  cases negated with
  | false => exact ⟨merged stretches, rfl, inside⟩
  | true =>
    have separated := CodeRange.join_separated (CodeRange.prepared_sorted (stretches.map range))
      (CodeRange.prepared_proper _)
    have bounded : Bounded (merged stretches) := by
      intro stretch member
      have member := List.mem_map_of_mem (f := range) member
      rw [inside] at member
      exact (separated.bounded member).2
    obtain ⟨gaps, defined, outside⟩ := exists_gaps? 0 bounded
    rw [inside] at outside
    exact ⟨gaps, defined, outside⟩

end Stretch

namespace CodeRange

/-- Words of 32 bits are enough for a canonical list. Its members lie within the code points in ascending
order, at least one code point is missing between neighbours, and they hold the code points inside the
ranges, or those outside. Ranges with the same code points have the same list, and the complement of a
list is the list of the complement. -/
theorem canonical_exactly (ranges : List CodeRange) (negated : Bool) :
    (∀ stretches : List Stretch, ∃ parts, Stretch.canonical? stretches negated = some parts ∧
      parts.map Stretch.range = canonical (stretches.map Stretch.range) negated) ∧
    (∀ range ∈ canonical ranges negated, range.lo ≤ range.hi ∧ range.hi ≤ maxCodePoint) ∧
    (canonical ranges negated).Pairwise (fun earlier later => earlier.hi + 1 < later.lo) ∧
    (∀ n, Covers (canonical ranges negated) n ↔
      n ≤ maxCodePoint ∧ (CoversSwapped ranges n ↔ negated = false)) ∧
    (∀ others, canonical others negated = canonical ranges negated ↔
      ∀ n ≤ maxCodePoint, CoversSwapped others n ↔ CoversSwapped ranges n) ∧
    canonical (canonical ranges negated) true = canonical ranges (!negated) := by
  have separated := canonical_separated ranges negated
  refine ⟨?_, fun range member => separated.bounded member, separated.apart, ?_, ?_, ?_⟩
  · exact fun stretches => Stretch.exists_canonical? stretches negated
  · exact covers_canonical_iff ranges negated
  · exact fun others => canonical_eq_iff ranges others negated
  · exact canonical_complement ranges negated

theorem canonical_exactly_overlapping :
    (∀ n ≤ maxCodePoint, CoversSwapped [⟨0xFFFFFFFF, 0x10FFFF⟩, ⟨0x64, 0x62⟩, ⟨0x61, 0x63⟩] n ↔
      CoversSwapped [⟨0x61, 0x61⟩, ⟨0x62, 0x64⟩, ⟨0x10FFFF, 0x110000⟩] n) ∧
    canonical [⟨0xFFFFFFFF, 0x10FFFF⟩, ⟨0x64, 0x62⟩, ⟨0x61, 0x63⟩] true =
      canonical [⟨0x61, 0x61⟩, ⟨0x62, 0x64⟩, ⟨0x10FFFF, 0x110000⟩] true ∧
    canonical [⟨0x61, 0x61⟩, ⟨0x62, 0x64⟩, ⟨0x10FFFF, 0x110000⟩] true = [⟨0, 0x60⟩, ⟨0x65, 0x10FFFE⟩] := by
  have same (n : Nat) (point : n ≤ maxCodePoint) :
      CoversSwapped [⟨0xFFFFFFFF, 0x10FFFF⟩, ⟨0x64, 0x62⟩, ⟨0x61, 0x63⟩] n ↔
        CoversSwapped [⟨0x61, 0x61⟩, ⟨0x62, 0x64⟩, ⟨0x10FFFF, 0x110000⟩] n := by
    change n ≤ 0x10FFFF at point
    simp only [CoversSwapped, List.mem_cons, List.not_mem_nil, or_false, exists_eq_or_imp, exists_eq_left]
    omega
  obtain ⟨_, _, _, _, determined, _⟩ :=
    canonical_exactly [⟨0x61, 0x61⟩, ⟨0x62, 0x64⟩, ⟨0x10FFFF, 0x110000⟩] true
  exact ⟨same, (determined _).mpr same, by with_unfolding_all decide⟩

end CodeRange
end GuidedDecoding
