namespace GuidedDecoding.Hex

def digits : Nat → Nat → List Char
  | 0, _ => []
  | width + 1, n => digits width (n / 16) ++ [Nat.digitChar (n % 16)]

def value? (c : Char) : Option Nat :=
  if '0' ≤ c ∧ c ≤ '9' then some (c.toNat - '0'.toNat)
  else if 'a' ≤ c ∧ c ≤ 'f' then some (c.toNat - 'a'.toNat + 10)
  else if 'A' ≤ c ∧ c ≤ 'F' then some (c.toNat - 'A'.toNat + 10)
  else none

def read? : Nat → Nat → List Char → Option (Nat × List Char)
  | 0, n, rest => some (n, rest)
  | _ + 1, _, [] => none
  | width + 1, n, c :: rest =>
    match value? c with
    | some d => read? width (16 * n + d) rest
    | none => none

theorem read?_length {width n m : Nat} {text rest : List Char}
    (h : read? width n text = some (m, rest)) : rest.length ≤ text.length := by
  fun_induction read? width n text with
  | case1 => simp_all
  | case2 => cases h
  | case3 _ _ _ _ _ _ ih => exact Nat.le_succ_of_le (ih h)
  | case4 => cases h

end GuidedDecoding.Hex
