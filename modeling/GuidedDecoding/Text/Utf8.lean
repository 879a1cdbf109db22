namespace GuidedDecoding.Utf8

def encode (text : List Char) : List UInt8 := text.flatMap String.utf8EncodeChar

@[simp] theorem encode_nil : encode [] = [] := rfl

@[simp] theorem encode_cons (c : Char) (text : List Char) :
    encode (c :: text) = String.utf8EncodeChar c ++ encode text := rfl

@[simp] theorem encode_append (s t : List Char) : encode (s ++ t) = encode s ++ encode t :=
  List.flatMap_append

structure Lead where
  trail : Nat
  bits : Nat
  least : Nat

def lead? (b : UInt8) : Option Lead :=
  let n := b.toNat
  if n < 0x80 then some ⟨0, n, 0⟩
  else if n < 0xC0 then none
  else if n < 0xE0 then some ⟨1, n - 0xC0, 0x80⟩
  else if n < 0xF0 then some ⟨2, n - 0xE0, 0x800⟩
  else if n < 0xF8 then some ⟨3, n - 0xF0, 0x10000⟩
  else none

def continue? : Nat → Nat → List UInt8 → Option (Nat × List UInt8)
  | 0, n, rest => some (n, rest)
  | _ + 1, _, [] => none
  | k + 1, n, b :: rest =>
    if 0x80 ≤ b.toNat ∧ b.toNat < 0xC0 then continue? k (n * 64 + (b.toNat - 0x80)) rest else none

def scalar? (least n : Nat) : Option Char :=
  if n.isValidChar ∧ least ≤ n then some (Char.ofNat n) else none

def decodeChar? : List UInt8 → Option (Char × List UInt8)
  | [] => none
  | b :: rest => do
    let lead ← lead? b
    let (n, rest) ← continue? lead.trail lead.bits rest
    let c ← scalar? lead.least n
    return (c, rest)

theorem continue?_length {k n m : Nat} {bytes rest : List UInt8}
    (h : continue? k n bytes = some (m, rest)) : rest.length ≤ bytes.length := by
  fun_induction continue? k n bytes with
  | case1 => simp_all
  | case2 => cases h
  | case3 k n b bytes _ ih => exact Nat.le_succ_of_le (ih h)
  | case4 => cases h

theorem decodeChar?_length {bytes rest : List UInt8} {c : Char}
    (h : decodeChar? bytes = some (c, rest)) : rest.length < bytes.length := by
  cases bytes with
  | nil => cases h
  | cons b bytes =>
    simp only [decodeChar?, Option.bind_eq_bind, Option.bind_eq_some_iff, Option.pure_def,
      Option.some.injEq, Prod.mk.injEq] at h
    obtain ⟨_, _, ⟨_, _⟩, read, _, _, _, rfl⟩ := h
    exact Nat.lt_succ_of_le (continue?_length read)

/-- The characters of the longest valid beginning of a byte string, and the bytes left over. -/
def decodePrefix (bytes : List UInt8) : List Char × List UInt8 :=
  match h : decodeChar? bytes with
  | none => ([], bytes)
  | some (c, rest) =>
    have := decodeChar?_length h
    let (text, left) := decodePrefix rest
    (c :: text, left)
termination_by bytes.length

def decode? (bytes : List UInt8) : Option (List Char) :=
  match decodePrefix bytes with
  | (text, []) => some text
  | _ => none

end GuidedDecoding.Utf8
