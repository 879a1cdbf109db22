import Mathlib
import GuidedDecoding.Proofs.Automaton.Acceptance
import GuidedDecoding.Proofs.Automaton.Normalization
import GuidedDecoding.Proofs.Grammar.Names
import GuidedDecoding.Proofs.Text.Utf8

open scoped Computability

namespace GuidedDecoding

def encoded (language : Language Char) : Language UInt8 := {w | ∃ text ∈ language, Utf8.encode text = w}

theorem mem_encoded {language : Language Char} {w : List UInt8} :
    w ∈ encoded language ↔ ∃ text ∈ language, Utf8.encode text = w := Iff.rfl

theorem encode_mem_encoded {language : Language Char} {text : List Char} :
    Utf8.encode text ∈ encoded language ↔ text ∈ language := by
  constructor
  · intro h
    obtain ⟨other, member, same⟩ := h
    rwa [← Utf8.encode_injective same]
  · exact fun member => ⟨text, member, rfl⟩

theorem encoded_zero : encoded 0 = 0 := by
  ext w
  simp [mem_encoded, Language.notMem_zero]

theorem encoded_one : encoded 1 = 1 := by
  ext w
  simp [mem_encoded, Language.mem_one, eq_comm]

theorem encoded_singleton (text : List Char) : encoded {text} = {Utf8.encode text} := by
  ext w
  constructor
  · intro h
    obtain ⟨_, rfl, rfl⟩ := h
    rfl
  · intro h
    obtain rfl := h
    exact ⟨text, rfl, rfl⟩

theorem encoded_add (one other : Language Char) : encoded (one + other) = encoded one + encoded other := by
  ext w
  simp only [Language.mem_add, mem_encoded, or_and_right, exists_or]

theorem encoded_mul (one other : Language Char) : encoded (one * other) = encoded one * encoded other := by
  ext w
  simp only [mem_encoded, Language.mem_mul]
  constructor
  · intro h
    obtain ⟨_, ⟨a, first, b, second, rfl⟩, rfl⟩ := h
    exact ⟨_, ⟨a, first, rfl⟩, _, ⟨b, second, rfl⟩, (Utf8.encode_append a b).symm⟩
  · intro h
    obtain ⟨_, ⟨a, first, rfl⟩, _, ⟨b, second, rfl⟩, rfl⟩ := h
    exact ⟨_, ⟨a, first, b, second, rfl⟩, Utf8.encode_append a b⟩

theorem encoded_pow (language : Language Char) (count : Nat) :
    encoded (language ^ count) = encoded language ^ count := by
  induction count with
  | zero => rw [pow_zero, pow_zero, encoded_one]
  | succ count ih => rw [pow_succ, pow_succ, encoded_mul, ih]

namespace Expr

variable {ref : Type}

mutual

/-- The texts an expression matches when `rules` tells which ones the rules match. -/
def denotes (rules : ref → Language Char) : Expr ref → Language Char
  | empty => 1
  | literal bytes => {text | Utf8.encode text = bytes}
  | charClass negated ranges =>
    {text | ∃ c : Char, (CodeRange.CoversSwapped ranges c.toNat ↔ negated = false) ∧ [c] = text}
  | rule r => rules r
  | sequence items => denotesAll rules items
  | choice alternatives => denotesAny rules alternatives
  | repetition body min max => {text | ∃ n, Repeats min max n ∧ text ∈ denotes rules body ^ n}

def denotesAll (rules : ref → Language Char) : List (Expr ref) → Language Char
  | [] => 1
  | e :: rest => denotes rules e * denotesAll rules rest

def denotesAny (rules : ref → Language Char) : List (Expr ref) → Language Char
  | [] => 0
  | e :: rest => denotes rules e + denotesAny rules rest

end

variable {rules : ref → Language Char}

theorem mem_denotes_charClass {negated : Bool} {ranges : List CodeRange} {text : List Char} :
    text ∈ denotes rules (.charClass negated ranges) ↔
      ∃ c : Char, (CodeRange.CoversSwapped ranges c.toNat ↔ negated = false) ∧ [c] = text := by
  rw [denotes]
  rfl

theorem mem_denotes_repetition {body : Expr ref} {min : Nat} {max : Option Nat} {text : List Char} :
    text ∈ denotes rules (.repetition body min max) ↔
      ∃ n, Repeats min max n ∧ text ∈ denotes rules body ^ n := by
  rw [denotes]
  rfl

theorem denotes_literal (text : List Char) : denotes rules (.literal (Utf8.encode text)) = {text} := by
  ext other
  rw [denotes]
  exact Utf8.encode_injective.eq_iff

theorem denotes_single_sequence (items : List (Expr ref)) :
    denotes rules (.single .sequence items) = denotesAll rules items := by
  unfold single
  split
  next e => rw [denotesAll, denotesAll, mul_one]
  next => rw [denotes]

theorem denotes_single_choice (alternatives : List (Expr ref)) :
    denotes rules (.single .choice alternatives) = denotesAny rules alternatives := by
  unfold single
  split
  next e => rw [denotesAny, denotesAny, add_zero]
  next => rw [denotes]

section

variable (body : Expr ref)

theorem denotes_exactly (count : Nat) :
    denotes rules (.repetition body count (some count)) = denotes rules body ^ count := by
  ext text
  rw [mem_denotes_repetition]
  constructor
  · intro h
    obtain ⟨n, ⟨least, most⟩, inside⟩ := h
    have le := most count rfl
    rw [max_self] at le
    rwa [Nat.le_antisymm le least] at inside
  · exact fun inside => ⟨count, ⟨Nat.le_refl count, fun bound _ => Nat.le_max_left count bound⟩, inside⟩

theorem denotes_optional : denotes rules (.repetition body 0 (some 1)) = 1 + denotes rules body := by
  ext text
  rw [mem_denotes_repetition, Language.mem_add]
  constructor
  · intro h
    obtain ⟨n, ⟨_, most⟩, inside⟩ := h
    have le : n ≤ 1 := by simpa using most 1 rfl
    interval_cases n
    · exact .inl (by rwa [pow_zero] at inside)
    · exact .inr (by rwa [pow_one] at inside)
  · rintro (none | once)
    · exact ⟨0, ⟨Nat.le_refl 0, by simp⟩, by rwa [pow_zero]⟩
    · exact ⟨1, ⟨Nat.zero_le 1, by simp⟩, by rwa [pow_one]⟩

theorem denotes_many : denotes rules (.repetition body 0 none) = (denotes rules body)∗ := by
  ext text
  rw [mem_denotes_repetition, Language.kstar_eq_iSup_pow, Language.mem_iSup]
  exact ⟨fun ⟨n, _, inside⟩ => ⟨n, inside⟩, fun ⟨n, inside⟩ => ⟨n, ⟨Nat.zero_le n, by simp⟩, inside⟩⟩

theorem denotes_some :
    denotes rules (.repetition body 1 none) = denotes rules body * (denotes rules body)∗ := by
  rw [Language.kstar_eq_iSup_pow, Language.mul_iSup]
  ext text
  rw [mem_denotes_repetition, Language.mem_iSup]
  constructor
  · intro h
    obtain ⟨n, ⟨least, _⟩, inside⟩ := h
    obtain ⟨n, rfl⟩ := Nat.exists_eq_add_of_le least
    exact ⟨n, by rwa [Nat.add_comm, pow_succ'] at inside⟩
  · intro h
    obtain ⟨n, inside⟩ := h
    exact ⟨n + 1, ⟨Nat.le_add_left 1 n, by simp⟩, by rwa [pow_succ']⟩

theorem denotes_repetition_le (min : Nat) (max : Option Nat) :
    denotes rules (.repetition body min max) ≤ (denotes rules body)∗ := by
  intro text member
  obtain ⟨n, _, inside⟩ := mem_denotes_repetition.mp member
  rw [Language.kstar_eq_iSup_pow]
  exact Language.mem_iSup.mpr ⟨n, inside⟩

end

theorem denotesAny_mono {more : ref → Language Char} {alternatives : List (Expr ref)}
    (each : ∀ e ∈ alternatives, denotes rules e ≤ denotes more e) :
    denotesAny rules alternatives ≤ denotesAny more alternatives := by
  induction alternatives with
  | nil => rw [denotesAny, denotesAny]
  | cons e rest ih =>
    rw [denotesAny, denotesAny]
    exact add_le_add (each e (by simp)) (ih fun m member => each m (by simp [member]))

theorem denotesAll_mono {more : ref → Language Char} {items : List (Expr ref)}
    (each : ∀ e ∈ items, denotes rules e ≤ denotes more e) : denotesAll rules items ≤ denotesAll more items := by
  induction items with
  | nil => rw [denotesAll, denotesAll]
  | cons e rest ih =>
    rw [denotesAll, denotesAll]
    exact mul_le_mul' (each e (by simp)) (ih fun m member => each m (by simp [member]))

theorem denotes_mono {more : ref → Language Char} (le : rules ≤ more) (e : Expr ref) :
    denotes rules e ≤ denotes more e := by
  induction e using structural with
  | empty => rw [denotes, denotes]
  | literal => exact fun text member => by rwa [denotes] at member ⊢
  | charClass => exact fun text member => mem_denotes_charClass.mpr (mem_denotes_charClass.mp member)
  | rule r =>
    rw [denotes, denotes]
    exact le r
  | sequence items ih =>
    rw [denotes, denotes]
    exact denotesAll_mono ih
  | choice alternatives ih =>
    rw [denotes, denotes]
    exact denotesAny_mono ih
  | repetition body min max ih =>
    intro text member
    obtain ⟨n, repeats, inside⟩ := mem_denotes_repetition.mp member
    exact mem_denotes_repetition.mpr ⟨n, repeats, pow_le_pow_left' ih n inside⟩

section

variable {ε : Type} {target : ref → Except ε RuleId} (rules : ref → Language Char) (sets : RuleId → Language Char)

def Encodes (target : ref → Except ε RuleId) (e : Expr ref) : Prop :=
  ∀ e', e.resolve target = .ok e' → e'.language (fun r => encoded (sets r)) = encoded (e.denotes rules)

theorem language_charClass (negated : Bool) (ranges : List CodeRange) :
    (charClass negated ranges : Expr RuleId).language (fun r => encoded (sets r)) =
      encoded ((charClass negated ranges : Expr ref).denotes rules) := by
  ext w
  rw [mem_language_charClass, mem_encoded]
  constructor
  · intro h
    obtain ⟨c, inside, rfl⟩ := h
    exact ⟨[c], mem_denotes_charClass.mpr ⟨c, inside, rfl⟩, by rw [Utf8.encode_cons]; exact List.append_nil _⟩
  · intro h
    obtain ⟨text, member, rfl⟩ := h
    obtain ⟨c, inside, rfl⟩ := mem_denotes_charClass.mp member
    exact ⟨c, inside, by rw [Utf8.encode_cons]; exact (List.append_nil _).symm⟩

theorem languageAll_resolveAll {items : List (Expr ref)} (each : ∀ e ∈ items, e.Encodes rules sets target)
    {results : List (Expr RuleId)} (resolved : resolveAll target items = .ok results) :
    languageAll (fun r => encoded (sets r)) results = encoded (denotesAll rules items) := by
  have pairs := forall₂_of_resolveAll resolved
  clear resolved
  induction pairs with
  | nil => rw [languageAll, denotesAll, encoded_one]
  | cons head _ ih =>
    rw [languageAll, denotesAll, encoded_mul, each _ (by simp) _ head, ih fun m member => each m (by simp [member])]

theorem languageAny_resolveAll {alternatives : List (Expr ref)}
    (each : ∀ e ∈ alternatives, e.Encodes rules sets target)
    {results : List (Expr RuleId)} (resolved : resolveAll target alternatives = .ok results) :
    languageAny (fun r => encoded (sets r)) results = encoded (denotesAny rules alternatives) := by
  have pairs := forall₂_of_resolveAll resolved
  clear resolved
  induction pairs with
  | nil => rw [languageAny, denotesAny, encoded_zero]
  | cons head _ ih =>
    rw [languageAny, denotesAny, encoded_add, each _ (by simp) _ head, ih fun m member => each m (by simp [member])]

theorem language_repetition {body : Expr RuleId} {before : Expr ref}
    (same : body.language (fun r => encoded (sets r)) = encoded (before.denotes rules)) (min : Nat)
    (max : Option Nat) :
    (repetition body min max).language (fun r => encoded (sets r)) =
      encoded ((repetition before min max).denotes rules) := by
  ext w
  rw [mem_language_repetition, same, mem_encoded]
  constructor
  · intro h
    obtain ⟨n, repeats, member⟩ := h
    rw [← encoded_pow] at member
    obtain ⟨text, inside, rfl⟩ := member
    exact ⟨text, mem_denotes_repetition.mpr ⟨n, repeats, inside⟩, rfl⟩
  · intro h
    obtain ⟨text, inside, rfl⟩ := h
    obtain ⟨n, repeats, inside⟩ := mem_denotes_repetition.mp inside
    exact ⟨n, repeats, encoded_pow _ n ▸ ⟨text, inside, rfl⟩⟩

/-- A resolved expression matches the encodings of what it matched before, if the rules do. -/
theorem language_resolve (same : ∀ r r', target r = .ok r' → sets r' = rules r) {e : Expr ref}
    (readable : e.Every Readable) : e.Encodes rules sets target := by
  induction e using structural with
  | empty =>
    intro e' resolved
    cases resolved
    rw [language, denotes, encoded_one]
  | literal bytes =>
    intro e' resolved
    cases bytes with
    | nil =>
      cases resolved
      rw [language, ← Utf8.encode_nil, denotes_literal, encoded_singleton]
      rfl
    | cons b bytes =>
      obtain ⟨text, same⟩ := readable.here
      cases resolved
      rw [language, ← same, denotes_literal, encoded_singleton]
  | charClass negated ranges =>
    intro e' resolved
    cases resolved
    exact language_charClass rules sets negated ranges
  | rule r =>
    intro e' resolved
    rw [resolve] at resolved
    obtain ⟨r', found, rfl⟩ := of_map_eq_ok resolved
    rw [language, denotes, same r r' found]
  | sequence items ih =>
    intro e' resolved
    rw [resolve] at resolved
    obtain ⟨results, found, rfl⟩ := of_map_eq_ok resolved
    rw [language, denotes]
    exact languageAll_resolveAll rules sets (fun e member => ih e member (readable.inside e member)) found
  | choice alternatives ih =>
    intro e' resolved
    rw [resolve] at resolved
    obtain ⟨results, found, rfl⟩ := of_map_eq_ok resolved
    rw [language, denotes]
    exact languageAny_resolveAll rules sets (fun e member => ih e member (readable.inside e member)) found
  | repetition body min max ih =>
    intro e' resolved
    rw [resolve] at resolved
    obtain ⟨result, found, rfl⟩ := of_map_eq_ok resolved
    exact language_repetition rules sets (ih readable.body result found) min max

end

end Expr

namespace Definition

def derivation (definitions : List Definition) : (String → Language Char) →o (String → Language Char) where
  toFun rules name := {text | ∃ d ∈ definitions, d.name = name ∧ text ∈ d.body.denotes rules}
  monotone' := by
    intro rules more le name text member
    obtain ⟨d, among, named, inside⟩ := member
    exact ⟨d, among, named, Expr.denotes_mono le d.body inside⟩

/-- The texts that each name stands for: the least sets that the bodies allow. -/
def texts (definitions : List Definition) : String → Language Char := (derivation definitions).lfp

variable {definitions : List Definition}

theorem mem_texts {name : String} {text : List Char} :
    text ∈ texts definitions name ↔
      ∃ d ∈ definitions, d.name = name ∧ text ∈ d.body.denotes (texts definitions) := by
  have fixed := congrFun (derivation definitions).map_lfp name
  exact (Set.ext_iff.mp fixed text).symm

theorem texts_eq (distinct : (definitions.map Definition.name).Nodup) {d : Definition}
    (member : d ∈ definitions) : texts definitions d.name = d.body.denotes (texts definitions) := by
  ext text
  rw [mem_texts]
  constructor
  · intro h
    obtain ⟨other, among, same, inside⟩ := h
    rwa [← List.inj_on_of_nodup_map distinct among member same]
  · exact fun inside => ⟨d, member, rfl, inside⟩

theorem texts_le {sets : String → Language Char}
    (allowed : ∀ d ∈ definitions, d.body.denotes sets ≤ sets d.name) : texts definitions ≤ sets := by
  apply OrderHom.lfp_le
  intro name text member
  obtain ⟨d, among, rfl, inside⟩ := member
  exact allowed d among inside

end Definition

namespace Grammar

section

variable {index : NameIndex} {definitions : List Definition} {rules : List Rule}
  (resolves : Resolves index definitions rules) (written : ∀ d ∈ definitions, d.body.Written)
include resolves written

theorem Resolves.language_le {name : String} {r : RuleId} (found : index[name]? = some r) :
    ruleLanguage (bodies rules.toArray) r ≤ encoded (Definition.texts definitions name) := by
  let sets (r : RuleId) : Language Char :=
    {text | ∃ d, definitions[r]? = some d ∧ text ∈ Definition.texts definitions d.name}
  have set {r : RuleId} {d : Definition} (here : definitions[r]? = some d) :
      sets r = Definition.texts definitions d.name := by
    ext text
    exact ⟨fun ⟨other, same, member⟩ => Option.some.inj (same.symm.trans here) ▸ member,
      fun member => ⟨d, here, member⟩⟩
  have le : ruleLanguage (bodies rules.toArray) ≤ fun r => encoded (sets r) := by
    apply ruleLanguage_le
    intro r body located
    obtain ⟨d, here, resolved⟩ := resolves.exists_definition located
    have member := List.mem_of_getElem? here
    have known (name : String) (r' : RuleId) (known : resolveName index d.name name = .ok r') :
        sets r' = Definition.texts definitions name := by
      obtain ⟨other, place, rfl⟩ := (resolves.indexes name r').mp (resolveName_eq_ok.mp known)
      exact set place
    rw [Expr.language_resolve _ sets known (written d member) body resolved, set here,
      Definition.texts_eq resolves.nodup member]
  obtain ⟨d, here, rfl⟩ := (resolves.indexes name r).mp found
  rw [← set here]
  exact le r

theorem Resolves.le_language {name : String} {r : RuleId} (found : index[name]? = some r) :
    encoded (Definition.texts definitions name) ≤ ruleLanguage (bodies rules.toArray) r := by
  let bodies := bodies rules.toArray
  let sets (r : RuleId) : Language Char := {text | Utf8.encode text ∈ ruleLanguage bodies r}
  let named (name : String) : Language Char := {text | ∀ r, index[name]? = some r → text ∈ sets r}
  have le : Definition.texts definitions ≤ named := by
    apply Definition.texts_le
    intro d member text inside r number
    obtain ⟨other, here, same⟩ := (resolves.indexes d.name r).mp number
    obtain rfl := List.inj_on_of_nodup_map resolves.nodup (List.mem_of_getElem? here) member same
    obtain ⟨body, located, resolved⟩ := resolves.body here
    have known (name : String) (r' : RuleId) (known : resolveName index other.name name = .ok r') :
        sets r' = named name := by
      have known := resolveName_eq_ok.mp known
      ext text
      exact ⟨fun member c same => Option.some.inj (known.symm.trans same) ▸ member, fun all => all r' known⟩
    have encode := encode_mem_encoded.mpr inside
    rw [← Expr.language_resolve named sets known (written other member) body resolved] at encode
    change Utf8.encode text ∈ ruleLanguage bodies r
    rw [ruleLanguage_eq located]
    refine Expr.language_mono (fun r w member => ?_) body encode
    obtain ⟨text, inside, rfl⟩ := member
    exact inside
  intro w member
  obtain ⟨text, inside, rfl⟩ := member
  exact le name inside r found

/-- The rules of definitions match the encodings of what the names of the definitions stand for. -/
theorem Resolves.language_eq {name : String} {r : RuleId} (found : index[name]? = some r) :
    ruleLanguage (bodies rules.toArray) r = encoded (Definition.texts definitions name) :=
  le_antisymm (resolves.language_le written found) (resolves.le_language written found)

end

theorem ruleLanguage_table (normalize : Bool) {rules : List Rule}
    (below : ∀ rule ∈ rules, rule.body.Below rules.length) {r : RuleId} (inside : r < rules.length) :
    ruleLanguage (bodies (table normalize rules)) r = ruleLanguage (bodies rules.toArray) r := by
  cases normalize with
  | false => rfl
  | true =>
    exact congrArg Meaning.whole
      (NormalForm.ruleMeaning_ofRules below 1 (fun _ (_ : rules.length ≤ _) => rfl) inside)

/-- A grammar matches the encodings of the texts that its definitions give its main rule. -/
theorem language_of_ofText {text : List Char} {settings : GrammarSettings} {grammar : Grammar}
    (compiled : ofText text settings = .ok grammar) :
    ∃ definitions, Definition.read text = .ok definitions ∧
      (definitions.map Definition.name).Nodup ∧
      grammar.language = encoded (Definition.texts definitions settings.mainRule) := by
  obtain ⟨rules, main, resolved, _, rfl⟩ := exists_resolvedText compiled
  obtain ⟨inside, below⟩ := below_of_resolvedText resolved
  obtain ⟨definitions, read, resolved⟩ := of_bind_eq_ok resolved
  have read := of_mapError_eq_ok read
  obtain ⟨index, resolves, found⟩ := resolves_of_resolve resolved
  refine ⟨definitions, read, resolves.nodup, ?_⟩
  rw [Grammar.language, ruleLanguage_table settings.normalize below inside]
  exact resolves.language_eq (Definition.written_of_read read) found

theorem accepting_iff_encoded {text : String} {settings : GrammarSettings} {grammar : Grammar}
    (compiled : compile text settings = .ok grammar) :
    ∃ definitions, Definition.read text.toList = .ok definitions ∧
      (definitions.map Definition.name).Nodup ∧
      ∀ w : List UInt8, (w.foldl grammar.automaton.step grammar.automaton.initial).accepting = true ↔
        w ∈ encoded (Definition.texts definitions settings.mainRule) := by
  obtain ⟨definitions, read, distinct, same⟩ := language_of_ofText compiled
  obtain ⟨rank, ranked⟩ := (wellFormed_of_compile compiled).exists_leftRanked
  refine ⟨definitions, read, distinct, fun w => ?_⟩
  rw [← same]
  exact Automaton.accepting_after ranked w

/-- Whatever classes and escapes a grammar is written with, it accepts valid UTF-8 only. -/
theorem decode?_of_accepting {text : String} {settings : GrammarSettings} {grammar : Grammar}
    (compiled : compile text settings = .ok grammar) {w : List UInt8}
    (accepting : (w.foldl grammar.automaton.step grammar.automaton.initial).accepting = true) :
    ∃ content : List Char, Utf8.decode? w = some content ∧ Utf8.encode content = w := by
  obtain ⟨_, _, _, accepted⟩ := accepting_iff_encoded compiled
  obtain ⟨content, _, rfl⟩ := (accepted w).mp accepting
  exact ⟨content, Utf8.decode?_encode content, rfl⟩

set_option maxRecDepth 2000 in
theorem decode?_of_accepting_surrogates :
    ∃ grammar : Grammar, compile "root ::= [\\ud7fb-\\ue000] | \"\\u00e9\" [^a] root" {} = .ok grammar ∧
      ([0xC3, 0xA9, 0xF0, 0x9F, 0x98, 0x80, 0xEE, 0x80, 0x80].foldl grammar.automaton.step
        grammar.automaton.initial).accepting = true ∧
      ∃ content : List Char,
        Utf8.decode? [0xC3, 0xA9, 0xF0, 0x9F, 0x98, 0x80, 0xEE, 0x80, 0x80] = some content ∧
          Utf8.encode content = [0xC3, 0xA9, 0xF0, 0x9F, 0x98, 0x80, 0xEE, 0x80, 0x80] := by
  let grammar : Grammar :=
    ⟨#[⟨"root", .choice [.sequence [.charClass false [⟨0xD7FB, 0xE000⟩]],
      .sequence [.literal [0xC3, 0xA9], .charClass true [⟨97, 97⟩], .rule 0]]⟩], 0, true⟩
  have compiled : compile "root ::= [\\ud7fb-\\ue000] | \"\\u00e9\" [^a] root" {} = .ok grammar := by cbv
  have accepting : ([0xC3, 0xA9, 0xF0, 0x9F, 0x98, 0x80, 0xEE, 0x80, 0x80].foldl grammar.automaton.step
      grammar.automaton.initial).accepting = true := by with_unfolding_all decide
  exact ⟨grammar, compiled, accepting, decode?_of_accepting compiled accepting⟩

end Grammar

end GuidedDecoding
