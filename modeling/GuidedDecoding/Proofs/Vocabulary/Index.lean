import Mathlib
import GuidedDecoding.Proofs.Grammar.Resolution
import GuidedDecoding.Proofs.Text.Utf8
import GuidedDecoding.Proofs.Vocabulary.Regular

namespace GuidedDecoding

/-- A lookup finds the least number of a set, and nothing only if the set is empty. -/
def FindsLeast (set : Set Nat) : Option Nat → Prop
  | some n => IsLeast set n
  | none => set = ∅

theorem FindsLeast.map_add {set : Set Nat} {found : Option Nat} (finds : FindsLeast set found) (start : Nat) :
    FindsLeast {n | ∃ k ∈ set, n = start + k} (found.map (start + ·)) := by
  cases found with
  | none =>
    obtain rfl : set = ∅ := finds
    simp [FindsLeast]
  | some n =>
    obtain ⟨member, least⟩ := finds
    refine ⟨⟨n, member, rfl⟩, fun m h => ?_⟩
    obtain ⟨k, among, rfl⟩ := h
    exact Nat.add_le_add_left (least among) start

theorem FindsLeast.exists_of_mem {set : Set Nat} {found : Option Nat} (finds : FindsLeast set found) {n : Nat}
    (member : n ∈ set) : ∃ least, found = some least ∧ IsLeast set least := by
  cases found with
  | none =>
    obtain rfl : set = ∅ := finds
    exact absurd member (Set.notMem_empty n)
  | some least => exact ⟨least, rfl, finds⟩

namespace Vocabulary

def IsText (token : List UInt8) : Prop := ∃ text : List Char, Utf8.encode text = token

/-- A token is special if it has no decoding, or no bytes, or if it is a control token. -/
def IsSpecial (encoding : TokenEncoding) (token : List UInt8) : Prop :=
  encoding.decode token = .undecodable ∨ encoding.decode token = .bytes [] ∨
    ∃ name ∈ controlTokens, Utf8.encode name.toList = token

structure IsRegular (encoding : TokenEncoding) (token bytes : List UInt8) : Prop where
  decoded : encoding.decode token = .bytes bytes
  regular : ¬IsSpecial encoding token

/-- The tokens that a vocabulary has, in the orders that it keeps them in. -/
structure Indexes (tokens : List (List UInt8)) (encoding : TokenEncoding) (v : Vocabulary) : Prop where
  special : ∀ id, v.isSpecial id = true ↔ ∃ token, tokens[id]? = some token ∧ IsSpecial encoding token
  mem_sorted : ∀ id bytes,
    ⟨id, bytes⟩ ∈ v.sorted ↔ ∃ token, tokens[id]? = some token ∧ IsRegular encoding token bytes
  listed : ∀ id, id ∈ v.sorted.map RegularToken.id ↔ id < tokens.length ∧ v.isSpecial id = false
  once : (v.sorted.map RegularToken.id).Nodup
  ascending : v.sorted.Pairwise fun a b => a.bytes < b.bytes ∨ a.bytes = b.bytes ∧ a.id < b.id
  entries : v.decodedIndex = .ofList (indexEntries none v.sorted) ∧
    (indexEntries none v.sorted).Pairwise fun a b => a.1 < b.1
  idOfDecoded : ∀ bytes, FindsLeast
    {id | ∃ token, tokens[id]? = some token ∧ IsRegular encoding token bytes} (v.idOfDecoded? bytes)
  idOf : ∀ token, FindsLeast {id | tokens[id]? = some token} (v.idOf? token)

section

variable {encoding : TokenEncoding} {token : List UInt8}

theorem decode_eq_notText : encoding.decode token = .notText ↔ encoding ≠ .raw ∧ ¬IsText token := by
  have text : IsText token ↔ Utf8.decode? token ≠ none := by
    rw [Option.ne_none_iff_exists']
    exact exists_congr fun _ => Utf8.decode?_eq_some_iff.symm
  rw [text]
  cases encoding with
  | raw => simp [TokenEncoding.decode]
  | byteFallback => cases read : Utf8.decode? token <;> simp [TokenEncoding.decode, read]
  | byteLevel =>
    cases read : Utf8.decode? token with
    | none => simp [TokenEncoding.decode, read]
    | some text => cases spelled : text.mapM TokenEncoding.byteLevelByte? <;> simp [TokenEncoding.decode, read, spelled]

theorem entry?_eq_none : entry? encoding token = none ↔ encoding ≠ .raw ∧ ¬IsText token := by
  rw [← decode_eq_notText, entry?]
  cases encoding.decode token <;> simp

theorem isNamed_eq_true {names : List String} :
    isNamed names token = true ↔ ∃ name ∈ names, Utf8.encode name.toList = token := by
  simp [isNamed]

theorem special_of_entry {e : VocabularyEntry} (found : entry? encoding token = some e) :
    e.special = true ↔ IsSpecial encoding token := by
  unfold entry? at found
  rw [IsSpecial, ← isNamed_eq_true]
  split at found
  next bytes decoded =>
    cases found
    simp [decoded]
  next undecodable =>
    cases found
    simp [undecodable]
  next => cases found

theorem raw_of_entry {e : VocabularyEntry} (found : entry? encoding token = some e) :
    e.raw = token := by
  unfold entry? at found
  split at found <;> cases found <;> rfl

theorem regular_of_entry {e : VocabularyEntry} (found : entry? encoding token = some e) (bytes : List UInt8) :
    e.special = false ∧ e.decoded = bytes ↔ IsRegular encoding token bytes := by
  have special := special_of_entry found
  rw [Bool.eq_false_iff, ne_eq, special]
  unfold entry? at found
  split at found
  next content decoded =>
    cases found
    constructor
    · intro h
      obtain ⟨regular, rfl⟩ := h
      exact ⟨decoded, regular⟩
    · intro h
      have same := h.decoded
      rw [decoded, TokenEncoding.Decoded.bytes.injEq] at same
      exact ⟨h.regular, same⟩
  next undecodable =>
    constructor
    · exact fun h => absurd (.inl undecodable) h.1
    · exact fun h => absurd (.inl undecodable) h.regular
  next => cases found

end

section

variable (encoding : TokenEncoding) (tokens : List (List UInt8)) {done : Reading} {id : Nat}

theorem error_readFrom {e : VocabularyError} (failed : (readFrom encoding done id tokens).2 = some e) :
    ∃ k token, tokens[k]? = some token ∧ e = .notText (id + k) encoding ∧ entry? encoding token = none ∧
      ∀ j < k, ∀ earlier ∈ tokens[j]?, entry? encoding earlier ≠ none := by
  fun_induction readFrom encoding done id tokens with
  | case1 => cases failed
  | case2 done id token rest events entry found ih =>
    obtain ⟨k, last, located, same, missing, before⟩ := ih failed
    refine ⟨k + 1, last, located, by rw [same, Nat.add_right_comm, Nat.add_assoc], missing, fun j below earlier here => ?_⟩
    cases j with
    | zero =>
      cases here
      simp [found]
    | succ j => exact before j (Nat.lt_of_succ_lt_succ below) earlier here
  | case3 done id token rest events missing =>
    cases failed
    exact ⟨0, token, rfl, rfl, missing, by simp⟩

theorem entries_readFrom (complete : (readFrom encoding done id tokens).2 = none) :
    ∃ entries, (readFrom encoding done id tokens).1.entries = entries.reverse ++ done.entries ∧
      List.Forall₂ (fun token e => entry? encoding token = some e) tokens entries := by
  fun_induction readFrom encoding done id tokens with
  | case1 => exact ⟨[], rfl, .nil⟩
  | case2 done id token rest events entry found ih =>
    obtain ⟨entries, same, all⟩ := ih complete
    exact ⟨entry :: entries, by simp [same], .cons found all⟩
  | case3 => cases complete

theorem index_readFrom (complete : (readFrom encoding done id tokens).2 = none) (token : List UInt8) :
    ∃ first, FindsLeast {k | tokens[k]? = some token} first ∧
      (readFrom encoding done id tokens).1.index[token]? = done.index[token]?.or (first.map (id + ·)) := by
  fun_induction readFrom encoding done id tokens with
  | case1 done => exact ⟨none, by simp [FindsLeast], by simp⟩
  | case2 done id head rest events entry found ih =>
    obtain ⟨first, finds, same⟩ := ih complete
    by_cases here : head = token
    · subst here
      refine ⟨some 0, ⟨rfl, fun k _ => Nat.zero_le k⟩, ?_⟩
      rw [same, Std.TreeMap.getElem?_insertIfNew]
      by_cases known : head ∈ done.index
      · simp [known]
      · simp [known]
    · refine ⟨first.map (1 + ·), ?_, ?_⟩
      · have later : {k | (head :: rest)[k]? = some token} = {n | ∃ k ∈ {k | rest[k]? = some token}, n = 1 + k} := by
          ext n
          cases n with
          | zero => simp [here]; omega
          | succ n => simp [Nat.add_comm 1]
        rw [later]
        exact finds.map_add 1
      · rw [same, Std.TreeMap.getElem?_insertIfNew, if_neg]
        · simp [Function.comp_def, Nat.add_assoc]
        · simp [here]
  | case3 => cases complete

end

theorem compare_bytes_eq_lt {a b : List UInt8} : compare a b = .lt ↔ a < b := by
  change List.compareLex compare a b = .lt ↔ a < b
  induction a generalizing b with
  | nil => cases b <;> simp [List.compareLex]
  | cons x a ih =>
    cases b with
    | nil => simp [List.compareLex]
    | cons y b =>
      rw [List.compareLex_cons_cons, Ordering.then_eq_lt, ih, Std.compare_eq_lt, Std.LawfulEqOrd.compare_eq_iff_eq,
        List.cons_lt_cons_iff]

theorem compare_eq_lt {a b : RegularToken} :
    compare a b = .lt ↔ a.bytes < b.bytes ∨ a.bytes = b.bytes ∧ a.id < b.id := by
  change compareLex (compareOn RegularToken.bytes) (compareOn RegularToken.id) a b = .lt ↔ _
  rw [compareLex, Ordering.then_eq_lt, compareOn, compareOn, compare_bytes_eq_lt, Std.LawfulEqOrd.compare_eq_iff_eq,
    Nat.compare_eq_lt]

abbrev Ascending (tokens : List RegularToken) : Prop :=
  tokens.Pairwise fun a b => a.bytes < b.bytes ∨ a.bytes = b.bytes ∧ a.id < b.id

section

variable {last : Option (List UInt8)} {tokens : List RegularToken}

theorem le_of_ascending {token : RegularToken} {rest : List RegularToken} (ascending : Ascending (token :: rest)) :
    ∀ t ∈ rest, ∀ bytes ∈ some token.bytes, bytes = t.bytes ∨ bytes < t.bytes := by
  intro t member bytes same
  obtain rfl := Option.some.inj same
  rcases (List.pairwise_cons.mp ascending).1 t member with less | ⟨same, _⟩
  · exact .inr less
  · exact .inl same

/-- The keys of the entries ascend, and all of them are above the bytes of the entry before. -/
theorem indexEntries_ascend (ascending : Ascending tokens)
    (above : ∀ t ∈ tokens, ∀ bytes ∈ last, bytes = t.bytes ∨ bytes < t.bytes) :
    (indexEntries last tokens).Pairwise (fun a b => a.1 < b.1) ∧
      ∀ entry ∈ indexEntries last tokens, ∀ bytes ∈ last, bytes < entry.1 := by
  induction tokens generalizing last with
  | nil => simp [indexEntries]
  | cons token rest ih =>
    have others := (List.pairwise_cons.mp ascending).2
    rw [indexEntries]
    split
    next => exact ih others fun t member => above t (by simp [member])
    next new =>
      obtain ⟨ascend, behind⟩ := ih others (le_of_ascending ascending)
      have first : ∀ bytes ∈ last, bytes < token.bytes := by
        intro bytes before
        rcases above token (by simp) bytes before with rfl | less
        · exact absurd before new
        · exact less
      refine ⟨List.pairwise_cons.mpr ⟨fun entry member => behind entry member _ rfl, ascend⟩, ?_⟩
      intro entry member bytes before
      rcases List.mem_cons.mp member with rfl | member
      · exact first bytes before
      · exact List.lt_trans (first bytes before) (behind entry member _ rfl)

theorem mem_indexEntries (ascending : Ascending tokens)
    (above : ∀ t ∈ tokens, ∀ bytes ∈ last, bytes = t.bytes ∨ bytes < t.bytes) {bytes : List UInt8} {id : Nat} :
    (bytes, id) ∈ indexEntries last tokens ↔
      last ≠ some bytes ∧ IsLeast {id | (⟨id, bytes⟩ : RegularToken) ∈ tokens} id := by
  induction tokens generalizing last with
  | nil => simp [indexEntries, IsLeast]
  | cons token rest ih =>
    obtain ⟨first, others⟩ := List.pairwise_cons.mp ascending
    -- Numbers of other bytes are not those of the first token.
    have further (other : token.bytes ≠ bytes) :
        {id | (⟨id, bytes⟩ : RegularToken) ∈ token :: rest} = {id | ⟨id, bytes⟩ ∈ rest} := by
      ext id
      change ⟨id, bytes⟩ ∈ token :: rest ↔ ⟨id, bytes⟩ ∈ rest
      rw [List.mem_cons, or_iff_right]
      intro same
      exact other (congrArg RegularToken.bytes same.symm)
    rw [indexEntries]
    split
    next known =>
      rw [ih others fun t member => above t (by simp [member])]
      apply and_congr_right
      intro new
      rw [further fun same => new (by rw [known, same])]
    next new =>
      rw [List.mem_cons, ih others (le_of_ascending ascending), Prod.mk.injEq]
      by_cases same : token.bytes = bytes
      · subst same
        have least : IsLeast {id | (⟨id, token.bytes⟩ : RegularToken) ∈ token :: rest} token.id := by
          refine ⟨List.mem_cons_self, fun id member => ?_⟩
          rcases List.mem_cons.mp member with same | member
          · exact (congrArg RegularToken.id same).ge
          · rcases first _ member with less | ⟨_, below⟩
            · exact absurd less (List.lt_irrefl _)
            · exact Nat.le_of_lt below
        simp only [true_and, ne_eq, not_true_eq_false, false_and, or_false, new, not_false_eq_true]
        exact ⟨fun here => here ▸ least, fun other => other.unique least⟩
      · have above_first (member : (⟨id, bytes⟩ : RegularToken) ∈ rest) : last ≠ some bytes := by
          intro before
          rcases above token (by simp) bytes before with rfl | less
          · exact same rfl
          · rcases first _ member with more | ⟨equal, _⟩
            · exact List.lt_irrefl _ (List.lt_trans less more)
            · exact same equal
        rw [further same]
        constructor
        · intro h
          rcases h with ⟨equal, _⟩ | ⟨_, least⟩
          · exact absurd equal.symm same
          · exact ⟨above_first least.1, least⟩
        · intro h
          exact .inr ⟨by simpa using same, h.2⟩

theorem getElem?_ofList {entries : List (List UInt8 × Nat)} (ascend : entries.Pairwise fun a b => a.1 < b.1)
    (bytes : List UInt8) (id : Nat) :
    (Std.TreeMap.ofList entries)[bytes]? = some id ↔ (bytes, id) ∈ entries := by
  have distinct : entries.Pairwise fun a b => ¬compare a.1 b.1 = .eq := by
    apply ascend.imp
    intro a b less same
    rw [Std.LawfulEqOrd.compare_eq_iff_eq] at same
    rw [same] at less
    exact List.lt_irrefl _ less
  have found {id : Nat} (member : (bytes, id) ∈ entries) : (Std.TreeMap.ofList entries)[bytes]? = some id :=
    Std.TreeMap.getElem?_ofList_of_mem Std.ReflCmp.compare_self distinct member
  constructor
  · intro here
    by_cases known : ∃ other, (bytes, other) ∈ entries
    · obtain ⟨other, member⟩ := known
      rw [found member, Option.some.injEq] at here
      rwa [← here]
    · rw [Std.TreeMap.getElem?_ofList_of_contains_eq_false (by simpa using known)] at here
      cases here
  · exact found

theorem findsLeast_index (ascending : Ascending tokens) (bytes : List UInt8) :
    FindsLeast {id | (⟨id, bytes⟩ : RegularToken) ∈ tokens}
      (Std.TreeMap.ofList (indexEntries none tokens))[bytes]? := by
  have nothing : ∀ t ∈ tokens, ∀ bytes ∈ (none : Option (List UInt8)), bytes = t.bytes ∨ bytes < t.bytes := by simp
  have found (id : Nat) := (getElem?_ofList (indexEntries_ascend ascending nothing).1 bytes id).trans
    (mem_indexEntries ascending nothing)
  cases result : (Std.TreeMap.ofList (indexEntries none tokens))[bytes]? with
  | some id => exact ((found id).mp result).2
  | none =>
    -- A set of numbers with a member has a least one, which would have been found.
    by_contra inhabited
    have least := isLeast_csInf (Set.nonempty_iff_ne_empty.mpr inhabited)
    have here := (found _).mpr ⟨by simp, least⟩
    rw [result] at here
    cases here

end

section

variable {tokens : List (List UInt8)} {encoding : TokenEncoding} {leadingSpace : Bool} {v : Vocabulary}

theorem ofTokens_eq_error {e : VocabularyError} (failed : (ofTokens tokens encoding leadingSpace).1 = .error e) :
    (readFrom encoding ⟨[], ∅, []⟩ 0 tokens).2 = some e := by
  unfold ofTokens at failed
  split at failed
  next read =>
    cases failed
    rw [read]
  next => cases failed

theorem exists_reading (built : (ofTokens tokens encoding leadingSpace).1 = .ok v) :
    (readFrom encoding ⟨[], ∅, []⟩ 0 tokens).2 = none ∧
      List.Forall₂ (fun token e => entry? encoding token = some e) tokens v.entries.toList ∧
      v.rawIndex = (readFrom encoding ⟨[], ∅, []⟩ 0 tokens).1.index ∧
      Ascending v.sorted ∧ v.decodedIndex = .ofList (indexEntries none v.sorted) := by
  unfold ofTokens at built
  split at built
  next => cases built
  next done read =>
    cases built
    have complete : (readFrom encoding ⟨[], ∅, []⟩ 0 tokens).2 = none := by rw [read]
    obtain ⟨entries, same, all⟩ := entries_readFrom encoding tokens complete
    refine ⟨complete, ?_, by rw [read], ?_, rfl⟩
    · rw [read, List.append_nil] at same
      rwa [same, List.reverse_reverse]
    · exact Std.TreeSet.ordered_toList.imp compare_eq_lt.mp

theorem getElem?_of_forall₂ {α β : Type} {f : α → Option β} {ones : List α} {others : List β}
    (all : List.Forall₂ (fun a b => f a = some b) ones others) (k : Nat) : others[k]? = ones[k]?.bind f := by
  induction all generalizing k with
  | nil => simp
  | cons first _ ih =>
    cases k with
    | zero => simp [first]
    | succ k => exact ih k

theorem size_of_ofTokens (built : (ofTokens tokens encoding leadingSpace).1 = .ok v) : v.size = tokens.length :=
  (exists_reading built).2.1.length_eq.symm

/-- A vocabulary is created of tokens that can be read and are not too many. -/
theorem create_eq_ok_iff : (create tokens encoding leadingSpace).1 = .ok v ↔
    tokens.length ≤ maxSize ∧ (ofTokens tokens encoding leadingSpace).1 = .ok v := by
  unfold create
  split
  next large => simp [Nat.not_le.mpr large]
  next few =>
    rw [and_iff_right (Nat.not_lt.mp few)]
    dsimp only
    cases (ofTokens tokens encoding leadingSpace).1 <;> simp [Except.mapError]

theorem size_le_of_create (created : (create tokens encoding leadingSpace).1 = .ok v) : v.size ≤ maxSize := by
  obtain ⟨few, built⟩ := create_eq_ok_iff.mp created
  rwa [size_of_ofTokens built]

section

variable (built : (ofTokens tokens encoding leadingSpace).1 = .ok v)
include built

theorem exists_entry_iff {id : Nat} {P : VocabularyEntry → Prop} {Q : List UInt8 → Prop}
    (same : ∀ token e, entry? encoding token = some e → (P e ↔ Q token)) :
    (∃ e, v.entries[id]? = some e ∧ P e) ↔ ∃ token, tokens[id]? = some token ∧ Q token := by
  obtain ⟨_, all, _⟩ := exists_reading built
  rw [← Array.getElem?_toList, getElem?_of_forall₂ all]
  constructor
  · intro h
    obtain ⟨e, found, held⟩ := h
    obtain ⟨token, located, entry⟩ := Option.bind_eq_some_iff.mp found
    exact ⟨token, located, (same token e entry).mp held⟩
  · intro h
    obtain ⟨token, located, held⟩ := h
    obtain ⟨e, _, entry⟩ := (exists_partner all).1 token (List.mem_of_getElem? located)
    exact ⟨e, by rw [located, Option.bind_some, entry], (same token e entry).mpr held⟩

theorem exists_regular {id : Nat} (inside : id < v.size) (regular : v.isSpecial id = false) :
    ∃ raw bytes, tokens[id]? = some raw ∧ IsRegular encoding raw bytes ∧ v.raw? id = some raw ∧
      v.decoded? id = some bytes := by
  obtain ⟨_, all, _⟩ := exists_reading built
  have located : v.entries[id]? = some v.entries[id] := Array.getElem?_eq_getElem inside
  rw [isSpecial, located, Option.any_some] at regular
  have entry := getElem?_of_forall₂ all id
  rw [Array.getElem?_toList, located] at entry
  obtain ⟨raw, here, found⟩ := Option.bind_eq_some_iff.mp entry.symm
  refine ⟨raw, v.entries[id].decoded, here, (regular_of_entry found _).mp ⟨regular, rfl⟩, ?_, ?_⟩
  · rw [raw?, located, Option.map_some, raw_of_entry found]
  · rw [decoded?, located, Option.map_some]

theorem indexes_of_ofTokens : v.Indexes tokens encoding := by
  obtain ⟨complete, all, raw, ascending, index⟩ := exists_reading built
  have member (id : Nat) (bytes : List UInt8) :
      ⟨id, bytes⟩ ∈ v.sorted ↔ ∃ token, tokens[id]? = some token ∧ IsRegular encoding token bytes := by
    rw [Vocabulary.mem_sorted built]
    exact exists_entry_iff built fun token e found => regular_of_entry found bytes
  have special (id : Nat) : v.isSpecial id = true ↔ ∃ token, tokens[id]? = some token ∧ IsSpecial encoding token := by
    rw [isSpecial, Option.any_eq_true]
    exact exists_entry_iff built fun token e => special_of_entry
  refine ⟨special, member, fun id => ?_, ?_, ascending, ⟨index, ?_⟩, fun bytes => ?_, fun token => ?_⟩
  · rw [Bool.eq_false_iff, ne_eq, special, List.mem_map]
    constructor
    · intro h
      obtain ⟨⟨id, bytes⟩, among, rfl⟩ := h
      obtain ⟨token, located, regular⟩ := (member id bytes).mp among
      refine ⟨(List.getElem?_eq_some_iff.mp located).1, fun h => ?_⟩
      obtain ⟨other, here, special⟩ := h
      rw [located, Option.some.injEq] at here
      exact regular.regular (here ▸ special)
    · intro h
      obtain ⟨inside, regular⟩ := h
      have located := List.getElem?_eq_getElem inside
      obtain ⟨e, _, found⟩ := (exists_partner all).1 tokens[id] (List.getElem_mem inside)
      have unmarked : e.special = false := by
        rw [Bool.eq_false_iff, ne_eq, special_of_entry found]
        exact fun special => regular ⟨_, located, special⟩
      exact ⟨⟨id, e.decoded⟩, (member id e.decoded).mpr ⟨_, located, (regular_of_entry found _).mp ⟨unmarked, rfl⟩⟩, rfl⟩
  · -- Tokens of one number stand for the same bytes, so they are one token.
    have distinct : v.sorted.Nodup := ascending.imp fun less same => by
      subst same
      exact less.elim (List.lt_irrefl _) fun below => Nat.lt_irrefl _ below.2
    refine distinct.map_on fun a one b other same => ?_
    obtain ⟨token, located, regular⟩ := (member a.id a.bytes).mp one
    obtain ⟨token', located', regular'⟩ := (member b.id b.bytes).mp other
    rw [same, located', Option.some.injEq] at located
    subst located
    have bytes := regular.decoded.symm.trans regular'.decoded
    rw [TokenEncoding.Decoded.bytes.injEq] at bytes
    cases a
    cases b
    simp_all
  · exact (indexEntries_ascend ascending (by simp)).1
  · have finds := findsLeast_index ascending bytes
    simp only [← index, member] at finds
    exact finds
  · obtain ⟨first, finds, same⟩ := index_readFrom encoding tokens complete token
    have found : v.idOf? token = first := by
      rw [idOf?, raw, same]
      simp
    rwa [found]

end

end

/-- Building a vocabulary fails if its tokens should be texts and one of them is none, and names the first
such token. Otherwise the vocabulary has the regular tokens in order and finds the least number of each. -/
theorem ofTokens_indexes (tokens : List (List UInt8)) (encoding : TokenEncoding) (leadingSpace : Bool) :
    ((∃ e, (ofTokens tokens encoding leadingSpace).1 = .error e) ↔
        encoding ≠ .raw ∧ ∃ token ∈ tokens, ¬IsText token) ∧
      match (ofTokens tokens encoding leadingSpace).1 with
      | .error e => ∃ id, e = .notText id encoding ∧
          IsLeast {id | ∃ token, tokens[id]? = some token ∧ ¬IsText token} id
      | .ok v => v.Indexes tokens encoding := by
  cases result : (ofTokens tokens encoding leadingSpace).1 with
  | error e =>
    obtain ⟨id, token, located, same, missing, before⟩ := error_readFrom encoding tokens (ofTokens_eq_error result)
    obtain ⟨textual, broken⟩ := entry?_eq_none.mp missing
    rw [Nat.zero_add] at same
    refine ⟨⟨fun _ => ⟨textual, token, List.mem_of_getElem? located, broken⟩, fun _ => ⟨e, rfl⟩⟩, id, same, ?_⟩
    refine ⟨⟨token, located, broken⟩, fun j h => ?_⟩
    obtain ⟨earlier, here, unreadable⟩ := h
    by_contra below
    exact before j (Nat.lt_of_not_le below) earlier here (entry?_eq_none.mpr ⟨textual, unreadable⟩)
  | ok v =>
    refine ⟨⟨fun h => ?_, fun h => ?_⟩, indexes_of_ofTokens result⟩
    · obtain ⟨e, failed⟩ := h
      cases failed
    · obtain ⟨textual, token, member, broken⟩ := h
      obtain ⟨_, all, _⟩ := exists_reading result
      obtain ⟨e, _, found⟩ := (exists_partner all).1 token member
      rw [entry?_eq_none.mpr ⟨textual, broken⟩] at found
      cases found

end Vocabulary

end GuidedDecoding
