import Mathlib
import GuidedDecoding.Proofs.Json.Strings
import GuidedDecoding.Proofs.Json.Values

open scoped Computability

namespace GuidedDecoding.JsonSyntax

structure Pair where
  key : List Char
  value : List Char

namespace Pair

def texts (m : Pair) : Language Char := {m.key} * colon isSpace * {m.value}

structure Proper (m : Pair) : Prop where
  key : m.key ∈ string
  value : m.value ∈ JsonSyntax.texts isSpace .value

end Pair

def behind : List Pair → Language Char
  | [] => blanks isSpace * {['\x7d']}
  | m :: rest => comma isSpace * m.texts * behind rest

def objectOf : List Pair → Language Char
  | [] => {['\x7b']} * blanks isSpace * {['\x7d']}
  | m :: rest => {['\x7b']} * blanks isSpace * m.texts * behind rest

/-- A text is read as an object with these members. -/
structure IsObject (text : List Char) (members : List Pair) : Prop where
  proper : ∀ m ∈ members, m.Proper
  written : text ∈ objectOf members

section

variable {t u x y : List Char}

theorem begun_cons {c : Char} (shown : ¬isSpace c) (rest : List Char) : Begun (c :: rest) := by
  intro d first
  obtain rfl : c = d := by simpa using first
  exact shown

theorem ended_cons {c : Char} (stop : isStop c = true) (rest : List Char) : Ended (c :: rest) := by
  intro d first
  obtain rfl : c = d := by simpa using first
  exact stop

theorem ended_blanks {b : List Char} (blank : b ∈ blanks isSpace) (ended : Ended t) : Ended (b ++ t) := by
  cases b with
  | nil => exact ended
  | cons c b => exact ended_cons (isStop_of_isSpace (mem_blanks.mp blank c (by simp))) (b ++ t)

theorem ended_separator {sign : Char} (stop : isStop sign = true)
    (separates : x ∈ blanks isSpace * {[sign]} * blanks isSpace) (rest : List Char) : Ended (x ++ rest) := by
  obtain ⟨_, ⟨b, blank, _, rfl, rfl⟩, d, _, rfl⟩ := separates
  have ended := ended_blanks blank (ended_cons stop (d ++ rest))
  simpa using ended

theorem separator_cancel {sign : Char} (shown : ¬isSpace sign) (first : x ∈ blanks isSpace * {[sign]} * blanks isSpace)
    (second : y ∈ blanks isSpace * {[sign]} * blanks isSpace) (begun : Begun t) (also : Begun u) (same : x ++ t = y ++ u) :
    t = u := by
  obtain ⟨_, ⟨b, before, _, rfl, rfl⟩, d, after, rfl⟩ := first
  obtain ⟨_, ⟨b', before', _, rfl, rfl⟩, d', after', rfl⟩ := second
  have same : b ++ (sign :: (d ++ t)) = b' ++ (sign :: (d' ++ u)) := by simpa using same
  have rest := blanks_cancel before before' (begun_cons shown _) (begun_cons shown _) same
  exact blanks_cancel after after' begun also (List.cons.inj rest).2

variable {m n : Pair}

theorem begun_pair (proper : m.Proper) (among : x ∈ m.texts) (rest : List Char) : Begun (x ++ rest) := by
  obtain ⟨_, ⟨_, rfl, gap, _, rfl⟩, _, rfl, rfl⟩ := among
  have begun := begun_value (string_le_value proper.key) (gap ++ (m.value ++ rest))
  simpa using begun

theorem pair_cancel (proper : m.Proper) (also : n.Proper) (first : x ∈ m.texts) (second : y ∈ n.texts) (ended : Ended t)
    (ended' : Ended u) (same : x ++ t = y ++ u) : m = n ∧ t = u := by
  obtain ⟨_, ⟨_, rfl, gap, separates, rfl⟩, _, rfl, rfl⟩ := first
  obtain ⟨_, ⟨_, rfl, gap', separates', rfl⟩, _, rfl, rfl⟩ := second
  have same : m.key ++ (gap ++ (m.value ++ t)) = n.key ++ (gap' ++ (n.value ++ u)) := by simpa using same
  have stop : isStop ':' = true := by decide
  obtain ⟨keys, rest⟩ := value_cancel (string_le_value proper.key) (string_le_value also.key)
    (ended_separator stop separates _) (ended_separator stop separates' _) same
  have rest := separator_cancel (by simp [isSpace]) separates separates' (begun_value proper.value t)
    (begun_value also.value u) rest
  obtain ⟨values, rest⟩ := value_cancel proper.value also.value ended ended' rest
  refine ⟨?_, rest⟩
  cases m
  cases n
  simp_all

end

theorem ended_behind {members : List Pair} {t : List Char} (among : t ∈ behind members) : Ended t := by
  cases members with
  | nil =>
    obtain ⟨b, blank, _, rfl, rfl⟩ := among
    exact ended_blanks blank (ended_cons (by decide) [])
  | cons m rest =>
    obtain ⟨_, ⟨gap, separates, x, _, rfl⟩, u, _, rfl⟩ := among
    have ended := ended_separator (by decide) separates (x ++ u)
    simpa using ended

theorem behind_injective {members others : List Pair} (proper : ∀ m ∈ members, m.Proper) (also : ∀ m ∈ others, m.Proper)
    {t : List Char} (first : t ∈ behind members) (second : t ∈ behind others) : members = others := by
  have brace : ¬isSpace '\x7d' := by simp [isSpace]
  have comma : ¬isSpace ',' := by simp [isSpace]
  have apart {n : Pair} {rest : List Pair} {t : List Char} (closed : t ∈ behind []) (more : t ∈ behind (n :: rest)) : False := by
    obtain ⟨b, blank, _, rfl, rfl⟩ := closed
    obtain ⟨_, ⟨_, ⟨_, ⟨b', blank', _, rfl, rfl⟩, d, _, rfl⟩, x, _, rfl⟩, u, _, same⟩ := more
    have same : b' ++ (',' :: (d ++ (x ++ u))) = b ++ ['\x7d'] := by simpa using same
    have clash := blanks_cancel blank' blank (begun_cons comma _) (begun_cons brace _) same
    cases (List.cons.inj clash).1
  induction members generalizing others t with
  | nil =>
    cases others with
    | nil => rfl
    | cons n rest => exact (apart first second).elim
  | cons m members ih =>
    cases others with
    | nil => exact (apart second first).elim
    | cons n others =>
      obtain ⟨_, ⟨gap, separates, x, here, rfl⟩, u, after, rfl⟩ := first
      obtain ⟨_, ⟨gap', separates', y, there, rfl⟩, v, after', same⟩ := second
      have same : gap' ++ (y ++ v) = gap ++ (x ++ u) := by simpa using same
      have one := proper m (by simp)
      have other := also n (by simp)
      have rest := separator_cancel comma separates' separates (begun_pair other there v) (begun_pair one here u) same
      obtain ⟨rfl, rfl⟩ := pair_cancel other one there here (ended_behind after') (ended_behind after) rest
      have behind := ih (fun m member => proper m (by simp [member])) (fun m member => also m (by simp [member])) after after'
      rw [behind]

/-- A text is read as an object in one way only. -/
theorem IsObject.unique {text : List Char} {members others : List Pair} (object : IsObject text members)
    (also : IsObject text others) : members = others := by
  have brace : ¬isSpace '\x7d' := by simp [isSpace]
  have apart {n : Pair} {rest : List Pair} {text : List Char} (proper : n.Proper) (none : text ∈ objectOf [])
      (some : text ∈ objectOf (n :: rest)) : False := by
    obtain ⟨_, ⟨_, rfl, b, blank, rfl⟩, _, rfl, rfl⟩ := none
    obtain ⟨_, ⟨_, ⟨_, rfl, b', blank', rfl⟩, x, there, rfl⟩, u, _, same⟩ := some
    have same : b' ++ (x ++ u) = b ++ ['\x7d'] := by simpa using same
    have clash := blanks_cancel blank' blank (begun_pair proper there u) (begun_cons brace []) same
    obtain ⟨_, ⟨_, rfl, _, _, rfl⟩, _, _, rfl⟩ := there
    obtain ⟨_, ⟨_, rfl, _, _, quoted⟩, _, _, whole⟩ := proper.key
    simp [← whole, ← quoted] at clash
  cases members with
  | nil =>
    cases others with
    | nil => rfl
    | cons n others => exact (apart (also.proper n (by simp)) object.written also.written).elim
  | cons m members =>
    cases others with
    | nil => exact (apart (object.proper m (by simp)) also.written object.written).elim
    | cons n others =>
      obtain ⟨_, ⟨_, ⟨_, rfl, b, blank, rfl⟩, x, here, rfl⟩, u, after, rfl⟩ := object.written
      obtain ⟨_, ⟨_, ⟨_, rfl, b', blank', rfl⟩, y, there, rfl⟩, v, after', same⟩ := also.written
      have same : b' ++ (y ++ v) = b ++ (x ++ u) := by simpa using same
      have one := object.proper m (by simp)
      have other := also.proper n (by simp)
      have rest := blanks_cancel blank' blank (begun_pair other there v) (begun_pair one here u) same
      obtain ⟨rfl, rfl⟩ := pair_cancel other one there here (ended_behind after') (ended_behind after) rest
      have behind := behind_injective (fun m member => object.proper m (by simp [member]))
        (fun m member => also.proper m (by simp [member])) after after'
      rw [behind]

/-- What the text of a key means. -/
def Pair.name? (m : Pair) : Option String :=
  match JsonToken.next? m.key with
  | some (.string parts, []) => (Json.decodeString? parts).map String.ofList
  | _ => none

end GuidedDecoding.JsonSyntax

namespace GuidedDecoding.Json

theorem name?_of_key {m : JsonSyntax.Pair} {name : String} (written : m.key = quote name) : m.name? = some name := by
  obtain ⟨parts, string, decoded, _⟩ := exists_next?_quote name
  simp [JsonSyntax.Pair.name?, written, string, decoded]

end GuidedDecoding.Json
