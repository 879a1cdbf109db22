import Mathlib
import GuidedDecoding.Grammar.Basic
import GuidedDecoding.Proofs.Grammar.Dialect

namespace GuidedDecoding

theorem of_bind_eq_ok {ε α β : Type} {x : Except ε α} {f : α → Except ε β} {b : β}
    (h : x >>= f = .ok b) : ∃ a, x = .ok a ∧ f a = .ok b := by
  cases x with
  | error fault => cases h
  | ok a => exact ⟨a, rfl, h⟩

theorem of_map_eq_ok {ε α β : Type} {x : Except ε α} {f : α → β} {b : β} (h : f <$> x = .ok b) :
    ∃ a, x = .ok a ∧ f a = b := by
  cases x with
  | error fault => cases h
  | ok a => exact ⟨a, rfl, Except.ok.inj h⟩

theorem of_mapError_eq_ok {ε ε' α : Type} {x : Except ε α} {f : ε → ε'} {a : α}
    (h : x.mapError f = .ok a) : x = .ok a := by
  cases x with
  | error fault => cases h
  | ok b =>
    cases h
    rfl

theorem exists_of_isOk {ε α : Type} {x : Except ε α} (h : x.isOk = true) : ∃ a, x = .ok a := by
  cases x with
  | error fault => cases h
  | ok a => exact ⟨a, rfl⟩

theorem exists_partner {α β : Type} {related : α → β → Prop} {ones : List α} {others : List β}
    (all : List.Forall₂ related ones others) :
    (∀ one ∈ ones, ∃ other ∈ others, related one other) ∧ ∀ other ∈ others, ∃ one ∈ ones, related one other := by
  induction all with
  | nil => simp
  | cons first _ ih =>
    simp only [List.mem_cons, forall_eq_or_imp, exists_eq_or_imp]
    exact ⟨⟨.inl first, fun one member => .inr (ih.1 one member)⟩, .inl first,
      fun other member => .inr (ih.2 other member)⟩

theorem forall₂_of_mapM {ε α β : Type} {f : α → Except ε β} {items : List α} {results : List β}
    (h : items.mapM f = .ok results) : List.Forall₂ (fun a b => f a = .ok b) items results := by
  induction items generalizing results with
  | nil =>
    cases h
    exact .nil
  | cons a rest ih =>
    rw [List.mapM_cons] at h
    obtain ⟨b, first, h⟩ := of_bind_eq_ok h
    obtain ⟨others, found, h⟩ := of_bind_eq_ok h
    cases h
    exact .cons first (ih found)

theorem Expr.forall₂_of_resolveAll {ref ref' ε : Type} {target : ref → Except ε ref'} {items : List (Expr ref)}
    {results : List (Expr ref')} (resolved : resolveAll target items = .ok results) :
    List.Forall₂ (fun e e' => e.resolve target = .ok e') items results := by
  induction items generalizing results with
  | nil =>
    cases resolved
    exact .nil
  | cons e rest ih =>
    rw [resolveAll] at resolved
    obtain ⟨first, head, resolved⟩ := of_bind_eq_ok resolved
    obtain ⟨others, tail, resolved⟩ := of_bind_eq_ok resolved
    cases resolved
    exact .cons head (ih tail)

namespace Expr

def Readable {ref : Type} : Expr ref → Prop
  | choice alternatives => alternatives ≠ []
  | literal bytes => ∃ text, Utf8.encode text = bytes
  | _ => True

abbrev Written (e : Expr String) : Prop := e.Every Readable

theorem Written.resolved {e : Expr String} (written : e.Written) : e.Every (Resolved fun _ => True) := by
  apply written.imp
  intro e readable
  cases e with
  | choice alternatives => exact readable
  | _ => trivial

abbrev Below (n : Nat) (e : Expr RuleId) : Prop := e.Every (Resolved (· < n))

theorem Below.mono {n m : Nat} (le : n ≤ m) {e : Expr RuleId} (below : e.Below n) : e.Below m := by
  apply below.imp
  intro e resolved
  cases e with
  | rule r => exact Nat.lt_of_lt_of_le resolved le
  | choice alternatives => exact resolved
  | _ => trivial

end Expr

theorem Definition.written_of_read {text : List Char} {definitions : List Definition}
    (read : Definition.read text = .ok definitions) : ∀ d ∈ definitions, d.body.Written := by
  intro d member
  apply (standard_of_read read d member).body.imp
  intro e standard
  cases e with
  | choice alternatives => exact List.ne_nil_of_length_pos (Nat.lt_of_succ_lt standard)
  | literal bytes => exact standard
  | _ => trivial

namespace Expr

variable {ref ref' ε : Type} {target : ref → Except ε ref'}

theorem exists_member_of_resolve {e : Expr ref} {e' : Expr ref'} (resolved : e.resolve target = .ok e') :
    ∀ m' ∈ e'.members, ∃ m ∈ e.members, m.resolve target = .ok m' := by
  cases e with
  | empty | charClass =>
    cases resolved
    simp [members]
  | literal bytes =>
    cases bytes <;>
    · cases resolved
      simp [members]
  | rule r =>
    rw [resolve] at resolved
    obtain ⟨r', found, rfl⟩ := of_map_eq_ok resolved
    simp [members]
  | sequence items =>
    rw [resolve] at resolved
    obtain ⟨items', found, rfl⟩ := of_map_eq_ok resolved
    exact (exists_partner (forall₂_of_resolveAll found)).2
  | choice alternatives =>
    rw [resolve] at resolved
    obtain ⟨alternatives', found, rfl⟩ := of_map_eq_ok resolved
    exact (exists_partner (forall₂_of_resolveAll found)).2
  | repetition body min max =>
    rw [resolve] at resolved
    obtain ⟨body', found, rfl⟩ := of_map_eq_ok resolved
    exact fun m' member => ⟨body, by simp [members], by rwa [List.mem_singleton.mp member]⟩

theorem Every.resolve {P : Expr ref → Prop} {Q : Expr ref' → Prop}
    (carries : ∀ e e', e.resolve target = .ok e' → P e → Q e') {e : Expr ref} {e' : Expr ref'} (every : e.Every P)
    (resolved : e.resolve target = .ok e') : e'.Every Q := by
  induction every generalizing e' with
  | intro here _ ih =>
    refine .intro (carries _ e' resolved here) fun m' member => ?_
    obtain ⟨m, among, found⟩ := exists_member_of_resolve resolved m' member
    exact ih m among found

theorem every_resolve {known : ref' → Prop} (maps : ∀ r r', target r = .ok r' → known r') {e : Expr ref}
    {e' : Expr ref'} (written : e.Every (Resolved fun _ => True)) (resolved : e.resolve target = .ok e') :
    e'.Every (Resolved known) := by
  refine written.resolve (fun e e' resolved here => ?_) resolved
  cases e with
  | empty | charClass =>
    cases resolved
    trivial
  | literal bytes => cases bytes <;> cases resolved <;> trivial
  | rule r =>
    rw [Expr.resolve] at resolved
    obtain ⟨r', found, rfl⟩ := of_map_eq_ok resolved
    exact maps r r' found
  | sequence items =>
    rw [Expr.resolve] at resolved
    obtain ⟨items', _, rfl⟩ := of_map_eq_ok resolved
    trivial
  | choice alternatives =>
    rw [Expr.resolve] at resolved
    obtain ⟨alternatives', found, rfl⟩ := of_map_eq_ok resolved
    intro none
    have pairs := forall₂_of_resolveAll found
    rw [none, List.forall₂_nil_right_iff] at pairs
    exact here pairs
  | repetition body min max =>
    rw [Expr.resolve] at resolved
    obtain ⟨body', _, rfl⟩ := of_map_eq_ok resolved
    trivial

end Expr

namespace Grammar

theorem ruleBody?_bodies (rules : List Rule) (r : RuleId) :
    ruleBody? (bodies rules.toArray) r = rules[r]?.map Rule.body := by
  simp [ruleBody?, bodies]

theorem lt_of_numberFrom {index result : NameIndex} {next : RuleId} {names : List String}
    (numbered : numberFrom index next names = .ok result)
    (below : ∀ (name : String) (r : RuleId), index[name]? = some r → r < next) {name : String} {r : RuleId}
    (found : result[name]? = some r) : r < next + names.length := by
  induction names generalizing index next with
  | nil =>
    cases numbered
    exact below name r found
  | cons first rest ih =>
    rw [numberFrom] at numbered
    split at numbered
    next => cases numbered
    next =>
      have bound := ih numbered fun other c known => by
        rw [Std.TreeMap.getElem?_insert] at known
        split at known
        · cases known
          exact Nat.lt_succ_self next
        · exact Nat.lt_succ_of_lt (below other c known)
      rw [List.length_cons]
      exact Nat.lt_of_lt_of_eq bound (by rw [Nat.add_assoc, Nat.add_comm 1])

theorem below_of_resolve {definitions : List Definition} {name : String} {rules : List Rule}
    {main : RuleId} (written : ∀ d ∈ definitions, d.body.Written)
    (resolved : resolve definitions name = .ok (rules, main)) :
    main < rules.length ∧ ∀ rule ∈ rules, rule.body.Below rules.length := by
  obtain ⟨index, numbered, resolved⟩ := of_bind_eq_ok resolved
  have below (name : String) (r : RuleId) (found : index[name]? = some r) :
      r < definitions.length := by
    have bound := lt_of_numberFrom numbered (by simp) found
    rwa [List.length_map, Nat.zero_add] at bound
  split at resolved
  next main found =>
    obtain ⟨rules, mapped, resolved⟩ := of_bind_eq_ok resolved
    cases resolved
    have pairs := forall₂_of_mapM mapped
    rw [← pairs.length_eq]
    refine ⟨below _ _ found, fun rule member => ?_⟩
    obtain ⟨d, among, made⟩ := (exists_partner pairs).2 rule member
    obtain ⟨body, found, made⟩ := of_bind_eq_ok made
    cases made
    refine Expr.every_resolve (fun reference r found => ?_) (written d among).resolved found
    rw [resolveName] at found
    split at found
    next c known =>
      cases found
      exact below _ _ known
    next => cases found
  next => cases resolved

end Grammar

end GuidedDecoding
