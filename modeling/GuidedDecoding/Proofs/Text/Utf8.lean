import Mathlib
import GuidedDecoding.Proofs.Text.ByteRange
import GuidedDecoding.Text.Utf8

namespace GuidedDecoding

namespace Utf8Zone

theorem foldl_digits (trail a n : Nat) :
    (digits trail n).foldl (fun n d => n * 64 + d) a = a * 64 ^ (trail + 1) + n := by
  induction trail generalizing a n with
  | zero => rw [digits, List.foldl_cons, List.foldl_nil, Nat.pow_one]
  | succ trail ih =>
    have parts := Nat.div_add_mod n (64 ^ (trail + 1))
    rw [digits, List.foldl_cons, ih, Nat.add_mul, Nat.mul_assoc, ← Nat.pow_succ', Nat.add_assoc,
      Nat.mul_comm (n / _), parts]

theorem exists_digits (trail n : Nat) :
    ∃ rest, digits trail n = n / 64 ^ trail :: rest ∧ rest.length = trail ∧ ∀ d ∈ rest, d < 64 := by
  induction trail generalizing n with
  | zero => exact ⟨[], by simp [digits], rfl, by simp⟩
  | succ trail ih =>
    obtain ⟨rest, found, length, small⟩ := ih (n % 64 ^ (trail + 1))
    have bound : n % 64 ^ (trail + 1) < 64 ^ trail * 64 := Nat.mod_lt n (width_pos (trail + 1))
    refine ⟨_, by rw [digits, found], by rw [List.length_cons, length], fun d member => ?_⟩
    rcases List.mem_cons.mp member with rfl | member
    · exact Nat.div_lt_of_lt_mul bound
    · exact small d member

theorem lead?_marked {zone : Utf8Zone} (member : zone ∈ all) {n : Nat}
    (zoned : zone.first ≤ n ∧ n ≤ zone.last) :
    ∃ least ≤ n, Utf8.lead? (UInt8.ofNat (zone.marker + n / 64 ^ zone.trail)) =
      some ⟨zone.trail, n / 64 ^ zone.trail, least⟩ := by
  have value : (UInt8.ofNat (zone.marker + n / 64 ^ zone.trail)).toNat =
      zone.marker + n / 64 ^ zone.trail := by
    apply UInt8.toNat_ofNat_of_lt'
    have := Nat.div_le_div_right (c := 64 ^ zone.trail) zoned.2
    exact Nat.lt_of_le_of_lt (by omega) (marker_bound member)
  unfold Utf8.lead?
  rw [value]
  simp only [all, List.mem_cons, List.not_mem_nil, or_false] at member
  rcases member with rfl | rfl | rfl | rfl | rfl <;> simp only [Nat.reducePow] at zoned ⊢
  · exact ⟨0, by omega, by rw [if_pos (by omega), Nat.zero_add]⟩
  · refine ⟨0x80, by omega, ?_⟩
    rw [if_neg (by omega), if_neg (by omega), if_pos (by omega), Nat.add_sub_cancel_left]
  · refine ⟨0x800, by omega, ?_⟩
    rw [if_neg (by omega), if_neg (by omega), if_neg (by omega), if_pos (by omega), Nat.add_sub_cancel_left]
  · refine ⟨0x800, by omega, ?_⟩
    rw [if_neg (by omega), if_neg (by omega), if_neg (by omega), if_pos (by omega), Nat.add_sub_cancel_left]
  · refine ⟨0x10000, by omega, ?_⟩
    rw [if_neg (by omega), if_neg (by omega), if_neg (by omega), if_neg (by omega), if_pos (by omega),
      Nat.add_sub_cancel_left]

theorem foldl_eq (ds : List Nat) (a : Nat) :
    ds.foldl (fun n d => n * 64 + d) a = a * 64 ^ ds.length + ds.foldl (fun n d => n * 64 + d) 0 := by
  induction ds generalizing a with
  | nil => simp
  | cons d ds ih =>
    rw [List.foldl_cons, List.foldl_cons, ih, ih (0 * 64 + d), List.length_cons, Nat.pow_succ']
    ring

theorem foldl_lt {ds : List Nat} (small : ∀ d ∈ ds, d < 64) :
    ds.foldl (fun n d => n * 64 + d) 0 < 64 ^ ds.length := by
  induction ds with
  | nil => simp
  | cons d ds ih =>
    have first := small d (by simp)
    have others := ih fun d member => small d (by simp [member])
    have product := Nat.mul_le_mul_right (64 ^ ds.length) (Nat.le_of_lt_succ first)
    rw [List.foldl_cons, foldl_eq, List.length_cons, Nat.pow_succ', Nat.zero_mul, Nat.zero_add]
    omega

theorem digits_foldl {ds : List Nat} (small : ∀ d ∈ ds, d < 64) (a : Nat) :
    digits ds.length (ds.foldl (fun n d => n * 64 + d) a) = a :: ds := by
  induction ds generalizing a with
  | nil => rfl
  | cons d ds ih =>
    have others : ∀ d ∈ ds, d < 64 := fun d member => small d (by simp [member])
    have rest := foldl_lt small
    rw [List.length_cons] at rest
    rw [List.length_cons, digits, foldl_eq, List.length_cons, Nat.add_comm (a * _),
      Nat.add_mul_div_right _ _ (width_pos _), Nat.div_eq_of_lt rest, Nat.zero_add, Nat.add_mul_mod_self_right,
      Nat.mod_eq_of_lt rest, List.foldl_cons, Nat.zero_mul, Nat.zero_add, ih others]

end Utf8Zone

namespace Utf8

open Utf8Zone

theorem continue?_trail (digits : List Nat) (small : ∀ d ∈ digits, d < 64) (n : Nat) (rest : List UInt8) :
    continue? digits.length n (digits.map (fun d => UInt8.ofNat (0x80 + d)) ++ rest) =
      some (digits.foldl (fun n d => n * 64 + d) n, rest) := by
  induction digits generalizing n with
  | nil => rfl
  | cons d digits ih =>
    have first := small d (by simp)
    have value : (UInt8.ofNat (0x80 + d)).toNat = 0x80 + d :=
      UInt8.toNat_ofNat_of_lt' (Nat.lt_trans (Nat.add_lt_add_left first _) (by decide))
    rw [List.map_cons, List.cons_append, List.length_cons, continue?, value,
      if_pos (by omega), Nat.add_sub_cancel_left, ih (fun d member => small d (by simp [member]))]
    rfl

theorem scalar?_toNat (c : Char) {least : Nat} (le : least ≤ c.toNat) : scalar? least c.toNat = some c := by
  rw [scalar?, if_pos ⟨c.valid, le⟩, Char.ofNat_toNat]

/-- The first character of a text is read back from its encoding. -/
theorem decodeChar?_encode (c : Char) (rest : List UInt8) :
    decodeChar? (String.utf8EncodeChar c ++ rest) = some (c, rest) := by
  obtain ⟨zone, member, zoned⟩ := exists_zone c
  obtain ⟨digits, found, length, small⟩ := exists_digits zone.trail c.toNat
  obtain ⟨least, le, lead⟩ := lead?_marked member zoned
  have number : digits.foldl (fun n d => n * 64 + d) (c.toNat / 64 ^ zone.trail) = c.toNat := by
    have all := foldl_digits zone.trail 0 c.toNat
    rwa [found, List.foldl_cons, Nat.zero_mul, Nat.zero_add, Nat.zero_mul, Nat.zero_add] at all
  rw [← encode_eq member c zoned, Utf8Zone.encode, found, markNumbers, List.cons_append, decodeChar?, lead]
  dsimp only [bind, Option.bind]
  rw [← length, continue?_trail digits small, length, number]
  dsimp only
  rw [scalar?_toNat c le]
  rfl

theorem decodePrefix_append (text : List Char) (bytes : List UInt8) :
    decodePrefix (encode text ++ bytes) = (text ++ (decodePrefix bytes).1, (decodePrefix bytes).2) := by
  induction text with
  | nil => rfl
  | cons c text ih =>
    have first := decodeChar?_encode c (encode text ++ bytes)
    rw [encode_cons, List.append_assoc, decodePrefix]
    split
    next none => simp [first] at none
    next c' rest found =>
      rw [first] at found
      cases found
      rw [ih]
      rfl

theorem decodePrefix_encode (text : List Char) : decodePrefix (encode text) = (text, []) := by
  have whole := decodePrefix_append text []
  have nothing : decodePrefix [] = ([], []) := by rw [decodePrefix]; rfl
  rwa [List.append_nil, nothing, List.append_nil] at whole

theorem decode?_encode (text : List Char) : decode? (encode text) = some text := by
  rw [decode?, decodePrefix_encode]

theorem encode_injective : Function.Injective encode := by
  intro one other same
  have texts := congrArg decode? same
  rwa [decode?_encode, decode?_encode, Option.some.injEq] at texts

theorem exists_digits_of_continue? {k n m : Nat} {bytes rest : List UInt8}
    (found : continue? k n bytes = some (m, rest)) :
    ∃ digits : List Nat, digits.length = k ∧ (∀ d ∈ digits, d < 64) ∧
      bytes = digits.map (fun d => UInt8.ofNat (0x80 + d)) ++ rest ∧
      m = digits.foldl (fun n d => n * 64 + d) n := by
  fun_induction continue? k n bytes with
  | case1 n bytes =>
    cases found
    exact ⟨[], rfl, by simp, rfl, rfl⟩
  | case2 => cases found
  | case3 k n b bytes marked ih =>
    obtain ⟨digits, length, small, written, value⟩ := ih found
    have first : UInt8.ofNat (0x80 + (b.toNat - 0x80)) = b := by
      rw [Nat.add_sub_cancel' marked.1, UInt8.ofNat_toNat]
    refine ⟨(b.toNat - 0x80) :: digits, by rw [List.length_cons, length], ?_, ?_, ?_⟩
    · intro d member
      rcases List.mem_cons.mp member with same | member
      · omega
      · exact small d member
    · simp only [List.map_cons, List.cons_append, first, ← written]
    · rw [List.foldl_cons, value]
  | case4 => cases found

theorem exists_zone_of_lead? {b : UInt8} {lead : Lead} (found : lead? b = some lead) {c : Char}
    (least : lead.least ≤ c.toNat) (most : c.toNat < (lead.bits + 1) * 64 ^ lead.trail) :
    ∃ zone ∈ all, (zone.first ≤ c.toNat ∧ c.toNat ≤ zone.last) ∧ zone.trail = lead.trail ∧
      UInt8.ofNat (zone.marker + lead.bits) = b := by
  have valid : c.toNat < 0xD800 ∨ 0xDFFF < c.toNat ∧ c.toNat < 0x110000 := c.valid
  have value (n : Nat) (same : n = b.toNat) : UInt8.ofNat n = b := by rw [same, UInt8.ofNat_toNat]
  simp only [all, List.mem_cons, List.not_mem_nil, or_false, exists_eq_or_imp, exists_eq_left]
  unfold lead? at found
  dsimp only at found
  split_ifs at found <;> cases found <;> simp only [Nat.reducePow, Nat.pow_zero, Nat.pow_one] at least most ⊢
  · exact .inl ⟨by omega, trivial, value _ (by omega)⟩
  · exact .inr (.inl ⟨by omega, trivial, value _ (by omega)⟩)
  · by_cases low : c.toNat < 0xD800
    · exact .inr (.inr (.inl ⟨by omega, trivial, value _ (by omega)⟩))
    · exact .inr (.inr (.inr (.inl ⟨by omega, trivial, value _ (by omega)⟩)))
  · exact .inr (.inr (.inr (.inr ⟨by omega, trivial, value _ (by omega)⟩)))

theorem encode_of_decodeChar? {bytes rest : List UInt8} {c : Char} (found : decodeChar? bytes = some (c, rest)) :
    String.utf8EncodeChar c ++ rest = bytes := by
  cases bytes with
  | nil => cases found
  | cons b bytes =>
    simp only [decodeChar?, Option.bind_eq_bind, Option.bind_eq_some_iff, Option.pure_def, Option.some.injEq,
      Prod.mk.injEq] at found
    obtain ⟨lead, begun, ⟨n, left⟩, continued, d, scalar, rfl, rfl⟩ := found
    obtain ⟨digits, length, small, rfl, rfl⟩ := exists_digits_of_continue? continued
    simp only [scalar?, Option.ite_none_right_eq_some, Option.some.injEq] at scalar
    obtain ⟨⟨valid, least⟩, rfl⟩ := scalar
    have number : (Char.ofNat (digits.foldl (fun n d => n * 64 + d) lead.bits)).toNat =
        digits.foldl (fun n d => n * 64 + d) lead.bits := by
      rw [Char.ofNat, dif_pos valid]
      rfl
    rw [← number] at least
    have most := foldl_lt small
    obtain ⟨zone, member, zoned, trail, first⟩ := exists_zone_of_lead? begun least (by
      rw [number, foldl_eq, ← length, Nat.succ_mul]
      omega)
    rw [← encode_eq member _ zoned, Utf8Zone.encode, number, trail, ← length, digits_foldl small, markNumbers,
      first]
    rfl

theorem encode_decodePrefix (bytes : List UInt8) :
    encode (decodePrefix bytes).1 ++ (decodePrefix bytes).2 = bytes := by
  fun_induction decodePrefix bytes with
  | case1 bytes none => rfl
  | case2 bytes c rest found shorter text left same ih =>
    rw [same] at ih
    rw [encode_cons, List.append_assoc, ih, encode_of_decodeChar? found]

theorem length_le_decodePrefix {text : List Char} {bytes : List UInt8} (begun : encode text <+: bytes) :
    (encode text).length ≤ (encode (decodePrefix bytes).1).length := by
  obtain ⟨rest, rfl⟩ := begun
  rw [decodePrefix_append, encode_append, List.length_append]
  exact Nat.le_add_right _ _

theorem encode_of_decode? {bytes : List UInt8} {text : List Char} (found : decode? bytes = some text) :
    encode text = bytes := by
  rw [decode?] at found
  split at found
  next complete =>
    cases found
    have all := encode_decodePrefix bytes
    rwa [complete, List.append_nil] at all
  next => cases found

theorem decode?_eq_some_iff {bytes : List UInt8} {text : List Char} :
    decode? bytes = some text ↔ encode text = bytes :=
  ⟨encode_of_decode?, fun same => same ▸ decode?_encode text⟩

end Utf8

end GuidedDecoding
