import Mathlib
import GuidedDecoding.Proofs.Vocabulary.Index

namespace GuidedDecoding

namespace TokenEncoding

/-- The code point of the character that spells a byte. A printable byte spells itself, and the others are numbered
from U+0100 on. -/
def byteLevelCode (n : Nat) : Nat :=
  if n ≤ 0x20 then 0x100 + n
  else if n ≤ 0x7E then n
  else if n ≤ 0xA0 then 0x121 + (n - 0x7F)
  else if n = 0xAD then 0x143
  else n

def byteLevelChar (b : UInt8) : Char := Char.ofNat (byteLevelCode b.toNat)

set_option maxRecDepth 4000 in
theorem byteLevelByte?_ofNat :
    ∀ n : Fin 256, byteLevelByte? (Char.ofNat (byteLevelCode n)) = some (UInt8.ofNat n) := by
  with_unfolding_all decide

theorem byteLevelCode_of_byteLevelByte? {c : Char} {b : UInt8} (spelled : byteLevelByte? c = some b) :
    byteLevelCode b.toNat = c.toNat := by
  unfold byteLevelByte? at spelled
  dsimp only at spelled
  unfold byteLevelCode
  split_ifs at spelled
  all_goals
    have value := congrArg UInt8.toNat (Option.some.inj spelled)
    simp only [UInt8.toNat_ofNat', UInt8.reduceToNat] at value
    split_ifs <;> omega

theorem byteLevelByte?_eq_some {c : Char} {b : UInt8} : byteLevelByte? c = some b ↔ c = byteLevelChar b := by
  constructor
  · intro spelled
    rw [byteLevelChar, byteLevelCode_of_byteLevelByte? spelled, Char.ofNat_toNat]
  · intro same
    have spelled := byteLevelByte?_ofNat ⟨b.toNat, b.toNat_lt⟩
    rw [UInt8.ofNat_toNat] at spelled
    rw [same]
    exact spelled

theorem mapM_byteLevelByte?_eq_some {text : List Char} {bytes : List UInt8} :
    text.mapM byteLevelByte? = some bytes ↔ text = bytes.map byteLevelChar := by
  induction text generalizing bytes with
  | nil => cases bytes <;> simp
  | cons c text ih =>
    rw [List.mapM_cons]
    cases bytes with
    | nil => simp [Option.bind_eq_some_iff]
    | cons b bytes => simp [Option.bind_eq_some_iff, byteLevelByte?_eq_some, ih]

theorem decode_byteLevel_eq_bytes {token bytes : List UInt8} :
    byteLevel.decode token = .bytes bytes ↔ token = Utf8.encode (bytes.map byteLevelChar) := by
  rw [eq_comm (a := token), ← Utf8.decode?_eq_some_iff, decode]
  cases Utf8.decode? token with
  | none => simp
  | some text =>
    rw [Option.some.injEq, ← mapM_byteLevelByte?_eq_some]
    cases spelled : text.mapM byteLevelByte? <;> simp [spelled]

end TokenEncoding

namespace Vocabulary

variable {tokens : List (List UInt8)} {leadingSpace : Bool} {v : Vocabulary}

/-- A byte-level token and its bytes stand at the same numbers. -/
theorem located_byteLevel_iff {raw bytes : List UInt8} (standing : IsRegular .byteLevel raw bytes) {id : Nat} :
    (∃ token, tokens[id]? = some token ∧ IsRegular .byteLevel token bytes) ↔ tokens[id]? = some raw := by
  constructor
  · intro h
    obtain ⟨token, here, alike⟩ := h
    have spelled := TokenEncoding.decode_byteLevel_eq_bytes.mp alike.decoded
    rw [here, spelled, ← TokenEncoding.decode_byteLevel_eq_bytes.mp standing.decoded]
  · exact fun here => ⟨raw, here, standing⟩

/-- A regular byte-level token has the same number as what it is and as what it stands for, since each byte string is
what exactly one token stands for. -/
theorem idOfDecoded_byteLevel (built : (ofTokens tokens .byteLevel leadingSpace).1 = .ok v) :
    (∀ id < v.size, v.isSpecial id = false → ∃ raw bytes first,
      v.raw? id = some raw ∧ v.decoded? id = some bytes ∧ TokenEncoding.byteLevel.decode raw = .bytes bytes ∧
        v.idOfDecoded? bytes = some first ∧ v.idOf? raw = some first ∧ IsLeast {id | tokens[id]? = some raw} first) ∧
      ∀ bytes, ∃! raw, TokenEncoding.byteLevel.decode raw = .bytes bytes := by
  constructor
  · intro id inside regular
    obtain ⟨raw, bytes, located, standing, kept, decoded⟩ := exists_regular built inside regular
    have indexes := indexes_of_ofTokens built
    obtain ⟨first, found, least⟩ := (indexes.idOf raw).exists_of_mem located
    have finds := indexes.idOfDecoded bytes
    simp only [located_byteLevel_iff standing] at finds
    obtain ⟨other, again, also⟩ := finds.exists_of_mem located
    exact ⟨raw, bytes, first, kept, decoded, standing.decoded, again.trans (congrArg some (also.unique least)), found,
      least⟩
  · intro bytes
    exact ⟨_, TokenEncoding.decode_byteLevel_eq_bytes.mpr rfl, fun token => TokenEncoding.decode_byteLevel_eq_bytes.mp⟩

theorem idOfDecoded_byteLevel_spaced :
    let tokens : List (List UInt8) := [[0x3C, 0x73, 0x3E], [0xC4, 0xA0, 0x61], [0xC3, 0xBF], [0xC4, 0xA0, 0x61]]
    ∃ v, (ofTokens tokens .byteLevel false).1 = .ok v ∧ v.size = 4 ∧ v.isSpecial 3 = false ∧
      v.raw? 3 = some [0xC4, 0xA0, 0x61] ∧ v.decoded? 3 = some [0x20, 0x61] ∧
      ∃ first, v.idOfDecoded? [0x20, 0x61] = some first ∧ v.idOf? [0xC4, 0xA0, 0x61] = some first ∧
        IsLeast {id | tokens[id]? = some [0xC4, 0xA0, 0x61]} first := by
  intro tokens
  obtain ⟨v, built, size, regular, raw, decoded⟩ : ∃ v, (ofTokens tokens .byteLevel false).1 = .ok v ∧ v.size = 4 ∧
      v.isSpecial 3 = false ∧ v.raw? 3 = some [0xC4, 0xA0, 0x61] ∧ v.decoded? 3 = some [0x20, 0x61] :=
    ⟨_, by with_unfolding_all rfl, by with_unfolding_all decide⟩
  obtain ⟨token, bytes, first, kept, standing, _, found⟩ :=
    (idOfDecoded_byteLevel built).1 3 (by rw [size]; decide) regular
  rw [raw, Option.some.injEq] at kept
  rw [decoded, Option.some.injEq] at standing
  subst kept standing
  exact ⟨v, built, size, regular, raw, decoded, first, found⟩

end Vocabulary

end GuidedDecoding
