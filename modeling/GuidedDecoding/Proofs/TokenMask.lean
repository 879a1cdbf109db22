import Mathlib
import GuidedDecoding.TokenMask

namespace GuidedDecoding.TokenMask

section Bits

theorem getLsbD_allow (word : Word) {i : Nat} (inside : i < 32) (j : Nat) :
    (word ||| 1#32 <<< i).getLsbD j = (word.getLsbD j || decide (j = i)) := by
  rw [BitVec.getLsbD_or, BitVec.getLsbD_shiftLeft]
  by_cases same : j = i
  · simp [same, inside]
  · have other : ¬(j < 32 ∧ ¬j < i ∧ j - i = 0) := by omega
    simp [same]
    omega

theorem getLsbD_reject (word : Word) {i : Nat} (inside : i < 32) (j : Nat) :
    (word &&& ~~~(1#32 <<< i)).getLsbD j = (word.getLsbD j && decide (j ≠ i)) := by
  rw [BitVec.getLsbD_and, BitVec.getLsbD_not, BitVec.getLsbD_shiftLeft]
  by_cases same : j = i
  · simp [same, inside]
  · by_cases within : j < 32
    · have other : ¬(¬j < i ∧ j - i = 0) := by omega
      simp [same, within]
      omega
    · simp [BitVec.getLsbD_of_ge word j (by omega)]

theorem bit_of_getElem? {words : List Word} {i : Nat} {word : Word} (found : words[i / 32]? = some word) :
    bit words i = word.getLsbD (i % 32) := by
  rw [bit, found]

theorem bit_outside {words : List Word} {i : Nat} (outside : 32 * words.length ≤ i) : bit words i = false := by
  have missing : words[i / 32]? = Option.none := List.getElem?_eq_none (by omega)
  rw [bit, missing]

theorem bit_none (size i : Nat) : bit (none size).words.toList i = false := by
  unfold bit none
  split
  next word found =>
    rw [Vector.toList_replicate, List.getElem?_replicate] at found
    split at found
    · cases found
      exact BitVec.getLsbD_zero
    · cases found
  next => rfl

theorem getLsbD_below {i : Nat} (inside : i < 32) (j : Nat) : ((1#32 <<< i) - 1).getLsbD j = decide (j < i) := by
  have power : (1#32 <<< i) - 1 = BitVec.ofNat 32 (2 ^ i - 1) := by
    have small : 2 ^ i < 2 ^ 32 := Nat.pow_lt_pow_right (by decide) inside
    have some : 0 < 2 ^ i := Nat.two_pow_pos i
    apply BitVec.eq_of_toNat_eq
    rw [BitVec.toNat_sub, BitVec.toNat_shiftLeft, BitVec.toNat_ofNat, Nat.shiftLeft_eq, BitVec.toNat_ofNat]
    simp only [BitVec.ofNat_eq_ofNat, BitVec.toNat_ofNat]
    omega
  rw [power, BitVec.getLsbD_ofNat, Nat.testBit_two_pow_sub_one, ← Bool.decide_and]
  apply decide_eq_decide.mpr
  omega

theorem size_all (size : Nat) : (all size).size = size := by
  unfold all
  split <;> rfl

theorem bit_all (size i : Nat) : bit (all size).words.toList i = decide (i < size) := by
  have filled : bit (List.replicate ((size + 31) / 32) (BitVec.allOnes 32)) i = decide (i / 32 < (size + 31) / 32) := by
    by_cases word : i / 32 < (size + 31) / 32
    · rw [bit_of_getElem? (by rw [List.getElem?_replicate, if_pos word]), BitVec.getLsbD_allOnes, decide_eq_true word,
        decide_eq_true (Nat.mod_lt i (by decide))]
    · rw [bit_outside (by rw [List.length_replicate]; omega), decide_eq_false word]
  unfold all
  by_cases rest : 0 < size % 32
  · rw [dif_pos rest]
    dsimp only
    rw [Vector.toList_set, Vector.toList_replicate]
    by_cases last : i / 32 = size / 32
    · have found : ((List.replicate ((size + 31) / 32) (BitVec.allOnes 32)).set (size / 32)
          ((1#32 <<< (size % 32)) - 1))[i / 32]? = some ((1#32 <<< (size % 32)) - 1) := by
        rw [last, List.getElem?_set_self (by rw [List.length_replicate]; omega)]
      rw [bit_of_getElem? found, getLsbD_below (Nat.mod_lt size (by decide))]
      apply decide_eq_decide.mpr
      omega
    · rw [bit, List.getElem?_set_ne (Ne.symm last), ← bit, filled]
      apply decide_eq_decide.mpr
      omega
  · rw [dif_neg rest]
    dsimp only
    rw [Vector.toList_replicate, filled]
    apply decide_eq_decide.mpr
    omega

@[simp] theorem size_allow (mask : TokenMask) (i : Nat) : (mask.allow i).size = mask.size := by
  unfold allow update
  split <;> rfl

@[simp] theorem size_reject (mask : TokenMask) (i : Nat) : (mask.reject i).size = mask.size := by
  unfold reject update
  split <;> rfl

/-- What an update does to each bit of a word, it does to the bits of the mask that are in the word. -/
theorem bit_update (mask : TokenMask) (i j : Nat) {f : Word → Word} (g : Nat → Bool → Bool)
    (each : ∀ word k, (f word).getLsbD k = g k (word.getLsbD k)) :
    bit (mask.update i f).words.toList j =
      if i < mask.size ∧ i / 32 = j / 32 then g (j % 32) (bit mask.words.toList j)
      else bit mask.words.toList j := by
  unfold update
  by_cases inside : i < mask.size
  · rw [dif_pos inside]
    have word : i / 32 < mask.words.toList.length := by
      rw [Vector.length_toList]
      exact word_lt inside
    unfold bit
    dsimp only
    rw [Vector.toList_set, List.getElem?_set]
    by_cases same : i / 32 = j / 32
    · rw [if_pos same, if_pos word, if_pos ⟨inside, same⟩, ← same, List.getElem?_eq_getElem word]
      dsimp only
      rw [each, Vector.getElem_toList]
    · rw [if_neg same, if_neg fun h => same h.2]
  · rw [dif_neg inside, if_neg fun h => inside h.1]

theorem bit_allow (mask : TokenMask) (i j : Nat) :
    bit (mask.allow i).words.toList j =
      (bit mask.words.toList j || decide (j = i ∧ i < mask.size)) := by
  rw [allow, bit_update mask i j (fun k b => b || decide (k = i % 32)) fun word k =>
    getLsbD_allow word (Nat.mod_lt i (by decide)) k]
  split
  next here =>
    congr 1
    apply decide_eq_decide.mpr
    omega
  next elsewhere =>
    have other : ¬(j = i ∧ i < mask.size) := by
      rintro ⟨rfl, inside⟩
      exact elsewhere ⟨inside, rfl⟩
    rw [decide_eq_false other, Bool.or_false]

theorem bit_reject (mask : TokenMask) (i j : Nat) :
    bit (mask.reject i).words.toList j =
      (bit mask.words.toList j && decide ¬(j = i ∧ i < mask.size)) := by
  rw [reject, bit_update mask i j (fun k b => b && decide (k ≠ i % 32)) fun word k =>
    getLsbD_reject word (Nat.mod_lt i (by decide)) k]
  split
  next here =>
    congr 1
    apply decide_eq_decide.mpr
    omega
  next elsewhere =>
    have other : ¬(j = i ∧ i < mask.size) := by
      rintro ⟨rfl, inside⟩
      exact elsewhere ⟨inside, rfl⟩
    rw [decide_eq_true other, Bool.and_true]

theorem bit_foldl_allow (ids : List Nat) (mask : TokenMask) (j : Nat) :
    bit (ids.foldl allow mask).words.toList j = true ↔
      bit mask.words.toList j = true ∨ j ∈ ids ∧ j < mask.size := by
  induction ids generalizing mask with
  | nil => simp
  | cons i ids ih =>
    rw [List.foldl_cons, ih, bit_allow, size_allow, Bool.or_eq_true, decide_eq_true_eq, List.mem_cons]
    constructor
    · intro h
      rcases h with (set | ⟨rfl, inside⟩) | ⟨member, inside⟩
      · exact .inl set
      · exact .inr ⟨.inl rfl, inside⟩
      · exact .inr ⟨.inr member, inside⟩
    · intro h
      rcases h with set | ⟨rfl | member, inside⟩
      · exact .inl (.inl set)
      · exact .inl (.inr ⟨rfl, inside⟩)
      · exact .inr ⟨member, inside⟩

theorem isAllowed_eq (mask : TokenMask) (i : Nat) :
    mask.isAllowed i = (decide (i < mask.size) && bit mask.words.toList i) := by
  rw [isAllowed]
  split
  next inside =>
    have word : i / 32 < mask.words.toList.length := by
      rw [Vector.length_toList]
      exact word_lt inside
    rw [bit_of_getElem? (List.getElem?_eq_getElem word), Vector.getElem_toList, decide_eq_true inside, Bool.true_and]
  next outside => rw [decide_eq_false outside, Bool.false_and]

end Bits

section Words

theorem bit_cons_low (word : Word) (words : List Word) {i : Nat} (low : i < 32) :
    bit (word :: words) i = word.getLsbD i := by
  have first : i / 32 = 0 := by omega
  rw [bit, first, Nat.mod_eq_of_lt low]
  rfl

theorem bit_cons_high (word : Word) (words : List Word) (i : Nat) : bit (word :: words) (32 + i) = bit words i := by
  have next : (32 + i) / 32 = i / 32 + 1 := by omega
  have rest : (32 + i) % 32 = i % 32 := by omega
  rw [bit, bit, next, rest, List.getElem?_cons_succ]

theorem foldl_popCount (words : List Word) (n : Nat) :
    words.foldl (fun n word => n + popCount word) n = n + (List.range (32 * words.length)).countP (bit words) := by
  induction words generalizing n with
  | nil => simp
  | cons word words ih =>
    have low : (List.range 32).countP (bit (word :: words)) = popCount word :=
      List.countP_congr fun i member => by rw [bit_cons_low word words (List.mem_range.mp member)]
    have high : ((List.range (32 * words.length)).map (32 + ·)).countP (bit (word :: words)) =
        (List.range (32 * words.length)).countP (bit words) := by
      rw [List.countP_map]
      exact List.countP_congr fun i _ => by rw [Function.comp_apply, bit_cons_high]
    rw [List.foldl_cons, ih, List.length_cons, Nat.mul_succ, Nat.add_comm _ 32, List.range_add, List.countP_append, low, high,
      Nat.add_assoc]

theorem length_wordBytes (word : Word) : (wordBytes word).length = 4 := by
  rw [wordBytes, List.length_map, List.length_range]

theorem testBit_of_wordBytes {word : Word} {k j : Nat} {byte : UInt8} (found : (wordBytes word)[k]? = some byte)
    (inside : j < 8) : byte.toNat.testBit j = word.getLsbD (8 * k + j) := by
  rw [wordBytes, List.getElem?_map] at found
  obtain ⟨_, place, rfl⟩ := Option.map_eq_some_iff.mp found
  obtain ⟨_, rfl⟩ := List.getElem?_eq_some_iff.mp place
  rw [List.getElem_range, UInt8.toNat_ofNat', Nat.testBit_mod_two_pow, Nat.testBit_shiftRight, BitVec.testBit_toNat,
    decide_eq_true inside, Bool.true_and]

theorem testBit_of_flatMap_wordBytes {words : List Word} {k j : Nat} {byte : UInt8}
    (found : (words.flatMap wordBytes)[k]? = some byte) (inside : j < 8) : byte.toNat.testBit j = bit words (8 * k + j) := by
  induction words generalizing k with
  | nil => simp at found
  | cons word words ih =>
    rw [List.flatMap_cons] at found
    by_cases first : k < 4
    · rw [List.getElem?_append_left (by rwa [length_wordBytes])] at found
      rw [testBit_of_wordBytes found inside, bit_cons_low word words (by omega)]
    · rw [List.getElem?_append_right (by rw [length_wordBytes]; omega), length_wordBytes] at found
      have split : 8 * k + j = 32 + (8 * (k - 4) + j) := by omega
      rw [ih found, split, bit_cons_high]

end Words

section ZeroBits

variable {words : List Word} {size : Nat}

theorem mem_zeroBits {i : Nat} : i ∈ zeroBits words size ↔
    i < min size (32 * words.length) ∧ ∃ word, words[i / 32]? = some word ∧ word.getLsbD (i % 32) = false := by
  rw [zeroBits, List.mem_filter, List.mem_range, Bool.not_eq_true', Nat.mul_comm]
  refine and_congr_right fun inside => ?_
  have word : i / 32 < words.length := by omega
  rw [bit_of_getElem? (List.getElem?_eq_getElem word), List.getElem?_eq_getElem word]
  exact ⟨fun zero => ⟨_, rfl, zero⟩, fun ⟨_, found, zero⟩ => Option.some.inj found ▸ zero⟩

theorem sortedLT_zeroBits (words : List Word) (size : Nat) : (zeroBits words size).SortedLT :=
  (List.pairwise_lt_range.filter _).sortedLT

/-- Bits within the range of the ids are their own ids. -/
theorem rejectedIn_eq_zeroBits (small : min size (32 * words.length) ≤ idLimit) :
    rejectedIn words size = zeroBits words size := by
  rw [rejectedIn, List.map_congr_left (g := id), List.map_id]
  intro i member
  exact Nat.mod_eq_of_lt (Nat.lt_of_lt_of_le (mem_zeroBits.mp member).1 small)

end ZeroBits

theorem wordCount?_eq_some {size : Nat} (fits : size + 31 < sizeLimit) : wordCount? size = some (wordCount size) :=
  if_pos fits

theorem wordCount?_eq_none {size : Nat} (large : sizeLimit ≤ size + 31) : wordCount? size = Option.none :=
  if_neg (Nat.not_lt.mpr large)

theorem filter_range_eq_sort {bound : Nat} {p : Nat → Bool} {ids : Finset Nat}
    (same : ∀ i, i ∈ ids ↔ i < bound ∧ p i = true) : (List.range bound).filter p = ids.sort (· ≤ ·) := by
  refine List.Pairwise.eq_of_mem_iff (List.pairwise_lt_range.filter p) (Finset.sortedLT_sort ids).pairwise fun i => ?_
  rw [List.mem_filter, List.mem_range, Finset.mem_sort, same]

section Sets

inductive Edit where
  | allow (id : Nat)
  | reject (id : Nat)

def edit (mask : TokenMask) : Edit → TokenMask
  | .allow id => mask.allow id
  | .reject id => mask.reject id

/-- The call as a change of a set of ids below a size. -/
def Edit.onSet (size : Nat) (ids : Finset Nat) : Edit → Finset Nat
  | .allow id => if id < size then insert id ids else ids
  | .reject id => ids.erase id

/-- The words of a mask have the bits of a set of ids. -/
structure Packs (mask : TokenMask) (size : Nat) (ids : Finset Nat) : Prop where
  same : mask.size = size
  inside : ∀ i ∈ ids, i < size
  bit : ∀ i, TokenMask.bit mask.words.toList i = decide (i ∈ ids)

theorem packs_none (size : Nat) : Packs (none size) size ∅ :=
  ⟨rfl, by simp, fun i => by rw [bit_none, decide_eq_false (Finset.notMem_empty i)]⟩

theorem packs_all (size : Nat) : Packs (all size) size (Finset.range size) :=
  ⟨size_all size, fun _ => Finset.mem_range.mp, fun i => by rw [bit_all, decide_eq_decide, Finset.mem_range]⟩

namespace Packs

variable {mask : TokenMask} {size : Nat} {ids : Finset Nat}

theorem edit (packs : Packs mask size ids) (call : Edit) : Packs (mask.edit call) size (call.onSet size ids) := by
  obtain ⟨same, inside, bits⟩ := packs
  cases call with
  | allow id =>
    refine ⟨(size_allow mask id).trans same, fun i member => ?_, fun i => ?_⟩
    · rw [Edit.onSet] at member
      split at member
      next known => exact (Finset.mem_insert.mp member).elim (fun new => new ▸ known) (inside i)
      next => exact inside i member
    · rw [TokenMask.edit, bit_allow, bits, same, ← Bool.decide_or, decide_eq_decide, Edit.onSet]
      split
      next known => simp [known, or_comm]
      next unknown => simp [unknown]
  | reject id =>
    refine ⟨(size_reject mask id).trans same, fun i member => inside i (Finset.mem_of_mem_erase member), fun i => ?_⟩
    rw [TokenMask.edit, bit_reject, bits, same, ← Bool.decide_and, decide_eq_decide, Edit.onSet, Finset.mem_erase]
    constructor
    · rintro ⟨member, kept⟩
      exact ⟨fun new => kept ⟨new, new ▸ inside i member⟩, member⟩
    · rintro ⟨other, member⟩
      exact ⟨member, fun new => other new.1⟩

theorem foldl_edit (packs : Packs mask size ids) (calls : List Edit) :
    Packs (calls.foldl TokenMask.edit mask) size (calls.foldl (Edit.onSet size) ids) := by
  induction calls generalizing mask ids with
  | nil => exact packs
  | cons call calls ih => exact ih (packs.edit call)

variable (packs : Packs mask size ids)
include packs

theorem length_words : mask.words.toList.length = size ⌈/⌉ 32 := by
  rw [Vector.length_toList, packs.same]
  rfl

theorem isAllowed (i : Nat) : mask.isAllowed i = decide (i ∈ ids) := by
  rw [isAllowed_eq, packs.bit, packs.same, ← Bool.decide_and, decide_eq_decide]
  exact and_iff_right_of_imp (packs.inside i)

theorem toList (small : size < idLimit) : mask.toList = ids.sort (· ≤ ·) := by
  rw [TokenMask.toList, packs.same, Nat.mod_eq_of_lt small]
  refine filter_range_eq_sort fun i => ?_
  rw [packs.isAllowed, decide_eq_true_eq]
  exact (and_iff_right_of_imp (packs.inside i)).symm

theorem rejected (small : size < idLimit) : mask.rejected = (Finset.range size \ ids).sort (· ≤ ·) := by
  have covered : min mask.size (32 * mask.words.toList.length) = size := by
    rw [packs.length_words, packs.same, Nat.ceilDiv_eq_add_pred_div]
    omega
  rw [TokenMask.rejected, rejectedIn_eq_zeroBits (covered.trans_le (Nat.le_of_lt small))]
  refine filter_range_eq_sort fun i => ?_
  rw [packs.bit, Nat.mul_comm, covered, Finset.mem_sdiff, Finset.mem_range, Bool.not_eq_true', decide_eq_false_iff_not]

theorem count : mask.count = ids.card := by
  have chosen : (List.range (32 * mask.words.toList.length)).filter (TokenMask.bit mask.words.toList) =
      ids.sort (· ≤ ·) := by
    refine filter_range_eq_sort fun i => ?_
    rw [packs.bit, decide_eq_true_eq, packs.length_words, Nat.ceilDiv_eq_add_pred_div]
    refine (and_iff_right_of_imp fun member => ?_).symm
    have known := packs.inside i member
    omega
  rw [TokenMask.count, foldl_popCount, Nat.zero_add, List.countP_eq_length_filter, chosen, Finset.length_sort]

theorem length_toBytes : mask.toBytes.length = 4 * (size ⌈/⌉ 32) := by
  rw [toBytes, List.length_flatMap]
  simp [length_wordBytes, packs.length_words, Nat.mul_comm]

theorem applyTo {logits : List Word} (fits : logits.length = size) : mask.applyTo logits =
    .ok (logits.mapIdx fun i logit => if i ∈ ids then logit else negativeInfinity) := by
  rw [TokenMask.applyTo, if_pos (fits.trans packs.same.symm)]
  refine congrArg Except.ok (List.mapIdx_eq_mapIdx_iff.mpr fun i _ => ?_)
  have read : (mask.words[i / 32]?).any (·.getLsbD (i % 32)) = TokenMask.bit mask.words.toList i := by
    rw [TokenMask.bit, Vector.getElem?_toList]
    cases mask.words[i / 32]? <;> rfl
  simp only [read, packs.bit, decide_eq_true_eq]

end Packs

def logitsAfter (mask : TokenMask) (logits : List Word) : List Word := (mask.applyTo logits).toOption.getD logits

/-- All readers of a mask of a size read one set of ids from it. -/
structure Represents (mask : TokenMask) (size : Nat) (ids : Finset Nat) : Prop where
  inside : ∀ i ∈ ids, i < size
  allowed : ∀ i, mask.isAllowed i = true ↔ i ∈ ids
  ascending : mask.toList = ids.sort (· ≤ ·)
  complement : mask.rejected = (Finset.range size \ ids).sort (· ≤ ·)
  card : mask.count = ids.card
  wordCount : mask.words.toList.length = size ⌈/⌉ 32
  wordBits : ∀ k word, mask.words.toList[k]? = some word → ∀ j < 32, word.getLsbD j = decide (32 * k + j ∈ ids)
  byteCount : mask.toBytes.length = 4 * (size ⌈/⌉ 32)
  byteBits : ∀ k byte, mask.toBytes[k]? = some byte → ∀ j < 8, byte.toNat.testBit j = decide (8 * k + j ∈ ids)
  masked : ∀ logits, logits.length = size → mask.applyTo logits = .ok (mask.logitsAfter logits) ∧
    mask.logitsAfter logits = logits.mapIdx fun i logit => if i ∈ ids then logit else negativeInfinity
  refused : ∀ logits, logits.length ≠ size → mask.applyTo logits = .error .lengthMismatch ∧
    mask.logitsAfter logits = logits

theorem Packs.represents {mask : TokenMask} {size : Nat} {ids : Finset Nat} (small : size < idLimit)
    (packs : Packs mask size ids) : Represents mask size ids where
  inside := packs.inside
  allowed i := by rw [packs.isAllowed, decide_eq_true_eq]
  ascending := packs.toList small
  complement := packs.rejected small
  card := packs.count
  wordCount := packs.length_words
  wordBits k word found j inside := by
    have place : (32 * k + j) / 32 = k := by omega
    have offset : (32 * k + j) % 32 = j := by omega
    rw [← packs.bit, bit_of_getElem? (by rw [place, found]), offset]
  byteCount := packs.length_toBytes
  byteBits k byte found j inside := by rw [testBit_of_flatMap_wordBytes found inside, packs.bit]
  masked logits fits := by
    have applied := packs.applyTo fits
    rw [logitsAfter, applied]
    exact ⟨rfl, rfl⟩
  refused logits misfit := by
    have refused : mask.applyTo logits = .error .lengthMismatch := if_neg fun fits => misfit (fits.trans packs.same)
    rw [logitsAfter, refused]
    exact ⟨rfl, rfl⟩

end Sets

/-- Around the last word of forty tokens. -/
example : (([.reject 33, .allow 40, .reject 2] : List Edit).foldl edit (all 40)).words.toList =
    [0xFFFFFFFB#32, 0x000000FD#32] := by decide +kernel

end GuidedDecoding.TokenMask
