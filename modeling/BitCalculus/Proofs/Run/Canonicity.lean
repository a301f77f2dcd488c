import Mathlib
import BitCalculus.Proofs.Run.Moments
import BitCalculus.Proofs.Run.Programs

/-!
# Canonical values

A cache is asked for numbers, built-in functions, environments and closures, and to store and look
up results. Whatever it was asked for, items with one number are one item, there is one environment
for each list of values and one closure for each environment and body, and the result stored first
is the one that is found ever after. Hence in every run a closure is determined by its body and by
what it captures, no matter how deep.
-/

namespace BitCalculus

/-! ### What a cache is asked for -/

/-- What a cache gives out. -/
inductive Item where
  | number (id : Nat)
  | value (v : Value)
  | base (b : Base)

/-- The number of an item. -/
def Item.id : Item → Nat
  | number id => id
  | value v => v.id
  | base b => b.id

/-- What a cache can be asked for. A `stage` is a reader that holds continuations. -/
inductive Request where
  | number
  | builtin (b : Builtin)
  | stage (held : List Value)
  | environment (values : List Value)
  | closure (env : Base) (body : Expr)
  | lookup (function argument : Value)
  | store (function argument result : Value)

namespace Request

/-- The items that a request names. -/
def operands : Request → List Item
  | number => []
  | builtin _ => []
  | stage held => held.map .value
  | environment values => values.map .value
  | closure env _ => [.base env]
  | lookup function argument => [.value function, .value argument]
  | store function argument result => [.value function, .value argument, .value result]

/-- Whether the answer to the request is always a new item. -/
def isFresh : Request → Bool
  | number => true
  | builtin _ => true
  | stage _ => true
  | _ => false

/-- The result that a request stores under the given numbers of function and argument. -/
def stored? (key : Nat × Nat) : Request → Option Value
  | store function argument result =>
    if (function.id, argument.id) = key then some result else none
  | _ => none

theorem mem_operands_of_stored {r : Request} {key : Nat × Nat} {v : Value}
    (h : r.stored? key = some v) : .value v ∈ r.operands := by
  cases r with
  | store function argument result =>
    rw [stored?, Option.ite_none_right_eq_some] at h
    simp [operands, Option.some.inj h.2]
  | _ => cases h

end Request

/-- Answers a request; only a lookup may give nothing. -/
def Cache.answer (c : Cache) : Request → Option Item × Cache
  | .number => (some (.number c.next.1), c.next.2)
  | .builtin b => (some (.value (b.instantiate c).1), (b.instantiate c).2)
  | .stage held => (some (.value (.reader c.next.1 held)), c.next.2)
  | .environment values => (some (.base (c.environment values).1), (c.environment values).2)
  | .closure env body => (some (.value (c.closure env body).1), (c.closure env body).2.2)
  | .lookup function argument => ((c.lookup function argument).map .value, c)
  | .store function argument result =>
    (some (.value (c.store function argument result).1), (c.store function argument result).2)

/-- Requests with the answers to them, the first one first. -/
abbrev Transcript := List (Request × Option Item)

namespace Transcript

/-- The items that were given out, in order. -/
def items (t : Transcript) : List Item :=
  t.filterMap Prod.snd

/-- The result that was stored first under the given numbers of function and argument. -/
def firstStored (t : Transcript) (key : Nat × Nat) : Option Value :=
  t.findSome? fun e ↦ e.1.stored? key

theorem mem_items {t : Transcript} {x : Item} : x ∈ t.items ↔ ∃ r, (r, some x) ∈ t := by
  simp [items]

theorem items_append (t t' : Transcript) : items (t ++ t') = t.items ++ items t' :=
  List.filterMap_append

theorem mem_items_concat {t : Transcript} {r : Request} {answer : Option Item} {x : Item} :
    x ∈ items (t ++ [(r, answer)]) ↔ x ∈ t.items ∨ answer = some x := by
  rw [items_append, List.mem_append]
  cases answer <;> simp [items, eq_comm]

theorem firstStored_concat (t : Transcript) (e : Request × Option Item) (key : Nat × Nat) :
    firstStored (t ++ [e]) key = (t.firstStored key).or (e.1.stored? key) := by
  simp [firstStored, List.findSome?_append]

end Transcript

/-- A cache that was new and then answered the requests of the transcript. Requests name only items
that were given out before. -/
inductive Served : Transcript → Cache → Prop
  | new : Served [] {}
  | ask {t : Transcript} {c c' : Cache} {r : Request} {answer : Option Item} (h : Served t c)
    (proper : ∀ x ∈ r.operands, x ∈ t.items) (ha : c.answer r = (answer, c')) :
    Served (t ++ [(r, answer)]) c'

/-- Every answer in a transcript was given by a cache that had served all that stands before. -/
theorem Served.split {before after : Transcript} {r : Request} {answer : Option Item} {c : Cache}
    (h : Served (before ++ (r, answer) :: after) c) :
    ∃ c', Served before c' ∧ (∀ x ∈ r.operands, x ∈ before.items) ∧ (c'.answer r).1 = answer := by
  generalize ht : before ++ (r, answer) :: after = t at h
  induction h generalizing after with
  | new => simp at ht
  | @ask t c _ r' _ h proper ha ih =>
    -- The last request is either the one in question or comes after it.
    rcases List.eq_nil_or_concat after with rfl | ⟨after', last, rfl⟩
    · obtain ⟨rfl, he⟩ := List.append_inj' ht rfl
      cases he
      exact ⟨c, h, proper, congrArg Prod.fst ha⟩
    · rw [List.concat_eq_append, ← List.cons_append, ← List.append_assoc] at ht
      exact ih (List.append_inj' ht rfl).1

/-! ### What a cache keeps -/

/-- What the cache knows of the transcript: its tables list exactly the environments and closures
that were given out, and it remembers the results that were stored first. Numbers identify items,
and what an item is made of was given out too. -/
structure Keeps (t : Transcript) (c : Cache) : Prop where
  filed : c.Filed (fun v ↦ .value v ∈ t.items) fun b ↦ .base b ∈ t.items
  applications : ∀ key, c.applications[key]? = t.firstStored key
  results : ∀ key v, t.firstStored key = some v → .value v ∈ t.items
  id_le : ∀ x ∈ t.items, x.id ≤ c.lastId
  id_inj : ∀ x ∈ t.items, ∀ y ∈ t.items, x.id = y.id → x = y
  values : ∀ b, .base b ∈ t.items → ∀ v ∈ b.values, .value v ∈ t.items
  captured : ∀ id env body, .value (.closure id env body) ∈ t.items → .base env ∈ t.items

/-- A number stands for one value. -/
theorem Keeps.unique {t : Transcript} {c : Cache} (h : Keeps t c) (v w : Value)
    (hv : .value v ∈ t.items) (hw : .value w ∈ t.items) (hid : v.id = w.id) : v = w :=
  Item.value.inj (h.id_inj _ hv _ hw hid)

theorem keeps_new : Keeps [] {} where
  filed := Cache.filed_empty.congr (by simp [Transcript.items]) (by simp [Transcript.items])
  applications := by simp [Transcript.firstStored]
  results := by simp [Transcript.firstStored]
  id_le := by simp [Transcript.items]
  id_inj := by simp [Transcript.items]
  values := by simp [Transcript.items]
  captured := by simp [Transcript.items]

section Step

variable {t : Transcript} {c : Cache} {r : Request}

/-- An answer has the next number, or it was given before. -/
theorem Keeps.answer_cases (h : Keeps t c) (proper : ∀ x ∈ r.operands, x ∈ t.items) :
    (∃ x, (c.answer r).1 = some x ∧ x.id = c.lastId + 1 ∧
        (c.answer r).2.lastId = c.lastId + 1) ∨
      (r.isFresh = false ∧ (c.answer r).2.lastId = c.lastId ∧
        ∀ x, (c.answer r).1 = some x → x ∈ t.items) := by
  cases r with
  | number => exact .inl ⟨_, rfl, rfl, rfl⟩
  | builtin b => exact .inl ⟨_, rfl, b.id_value _, rfl⟩
  | stage held => exact .inl ⟨_, rfl, rfl, rfl⟩
  | environment values =>
    rw [Cache.answer]
    rcases c.environment_cases values with ⟨b, hs, he⟩ | ⟨-, b, rfl, he⟩
    · rw [he]
      refine .inr ⟨rfl, rfl, ?_⟩
      rintro x ⟨⟩
      exact ((h.filed.environments _ b).mp hs).1
    · rw [he]
      exact .inl ⟨_, rfl, rfl, rfl⟩
  | closure env body =>
    rw [Cache.answer]
    rcases c.closure_cases env body with ⟨v, hs, he⟩ | ⟨-, v, rfl, he⟩
    · rw [he]
      refine .inr ⟨rfl, rfl, ?_⟩
      rintro x ⟨⟩
      exact ((h.filed.closures _ v).mp hs).1
    · rw [he]
      exact .inl ⟨_, rfl, rfl, rfl⟩
  | lookup f a =>
    refine .inr ⟨rfl, rfl, fun x hx ↦ ?_⟩
    obtain ⟨v, hv, rfl⟩ := Option.map_eq_some_iff.mp hx
    rw [Cache.lookup, h.applications] at hv
    exact h.results _ v hv
  | store f a result =>
    refine .inr ⟨rfl, c.lastId_store f a result, ?_⟩
    rw [Cache.answer]
    rcases c.store_cases f a result with ⟨v, hs, he⟩ | ⟨-, he⟩
    · rw [he]
      rintro x ⟨⟩
      rw [h.applications] at hs
      exact h.results _ v hs
    · rw [he]
      rintro x ⟨⟩
      exact proper _ (by simp [Request.operands])

/-- While no number is given out, no item is new. -/
theorem Keeps.old_answer (h : Keeps t c) (proper : ∀ x ∈ r.operands, x ∈ t.items)
    (hl : (c.answer r).2.lastId = c.lastId) (x : Item) :
    x ∈ t.items ∨ (c.answer r).1 = some x ↔ x ∈ t.items := by
  apply or_iff_left_of_imp
  rcases h.answer_cases proper with ⟨x, -, -, hl'⟩ | ⟨-, -, old⟩
  · omega
  · exact old x

/-- The tables go on to list exactly the environments and closures that were given out. -/
theorem Keeps.filed_ask (h : Keeps t c) (proper : ∀ x ∈ r.operands, x ∈ t.items) :
    (c.answer r).2.Filed (fun v ↦ .value v ∈ Transcript.items (t ++ [(r, (c.answer r).1)]))
      fun b ↦ .base b ∈ Transcript.items (t ++ [(r, (c.answer r).1)]) := by
  simp only [Transcript.mem_items_concat]
  cases r with
  | number =>
    exact ⟨h.filed.environments.congr (by simp [Cache.answer]),
      h.filed.closures.congr (by simp [Cache.answer])⟩
  | builtin b =>
    exact (h.filed.next (b.closureKey?_value c.next.1)).congr
      (by simp [Cache.answer, Builtin.instantiate, eq_comm]) (by simp [Cache.answer])
  | stage held =>
    exact (h.filed.next (v := .reader c.next.1 held) rfl).congr (by simp [Cache.answer, eq_comm])
      (by simp [Cache.answer])
  | environment values =>
    exact (h.filed.environment values).1.congr (by simp [Cache.answer])
      (by simp [Cache.answer, eq_comm])
  | closure env body =>
    exact (h.filed.closure env body).1.congr (by simp [Cache.answer, eq_comm])
      (by simp [Cache.answer])
  | lookup f a =>
    have same := h.old_answer proper rfl
    exact h.filed.congr (fun v ↦ same (.value v)) fun b ↦ same (.base b)
  | store f a result =>
    have same := h.old_answer proper (c.lastId_store f a result)
    exact (h.filed.store f a result).congr (fun v ↦ same (.value v)) fun b ↦ same (.base b)

/-- The cache goes on to remember the results that were stored first. -/
theorem Keeps.applications_ask (h : Keeps t c) (r : Request) (key : Nat × Nat) :
    (c.answer r).2.applications[key]? =
      Transcript.firstStored (t ++ [(r, (c.answer r).1)]) key := by
  rw [Transcript.firstStored_concat, ← h.applications]
  cases r with
  | store f a result =>
    rw [Cache.answer, Request.stored?]
    rcases c.store_cases f a result with ⟨v, hs, he⟩ | ⟨hs, he⟩
    · rw [he]
      by_cases hk : (f.id, a.id) = key
      · rw [← hk, hs]
        rfl
      · simp [hk]
    · rw [he]
      by_cases hk : (f.id, a.id) = key
      · rw [← hk, hs]
        simp
      · simp [hk, Std.HashMap.getElem?_insert]
  | environment values => simp [Cache.answer, Request.stored?, Cache.applications_environment]
  | closure env body => simp [Cache.answer, Request.stored?, Cache.applications_closure]
  | number => simp [Cache.answer, Request.stored?, Cache.next]
  | builtin b => simp [Cache.answer, Request.stored?, Builtin.instantiate, Cache.next]
  | stage held => simp [Cache.answer, Request.stored?, Cache.next]
  | lookup f a => simp [Cache.answer, Request.stored?]

/-- The values of an environment that is given out were given out before. -/
theorem Keeps.values_ask (h : Keeps t c) (proper : ∀ x ∈ r.operands, x ∈ t.items) {b : Base}
    (hb : (c.answer r).1 = some (.base b)) {v : Value} (hv : v ∈ b.values) :
    .value v ∈ t.items := by
  cases r with
  | environment values =>
    cases hb
    rcases c.environment_cases values with ⟨b, hs, he⟩ | ⟨-, b, rfl, he⟩
    · rw [he] at hv
      exact h.values b ((h.filed.environments _ b).mp hs).1 v hv
    · rw [he] at hv
      exact proper _ (List.mem_map_of_mem hv)
  | lookup f a => simp [Cache.answer] at hb
  | number => cases hb
  | builtin b => cases hb
  | stage held => cases hb
  | closure env body => cases hb
  | store f a result => cases hb

/-- The environment of a closure that is given out was given out before. -/
theorem Keeps.captured_ask (h : Keeps t c) (proper : ∀ x ∈ r.operands, x ∈ t.items) {id : Nat}
    {env : Base} {body : Expr} (hv : (c.answer r).1 = some (.value (.closure id env body))) :
    .base env ∈ t.items := by
  rcases h.answer_cases proper with ⟨x, -, -, hl⟩ | ⟨-, -, old⟩
  · cases r with
    | closure env' body' =>
      rcases c.closure_cases env' body' with ⟨v, hs, he⟩ | ⟨-, v, rfl, he⟩
      · rw [Cache.answer, he] at hl
        simp at hl
      · rw [Cache.answer, he] at hv
        cases hv
        exact proper _ (by simp [Request.operands])
    | lookup f a => simp [Cache.answer] at hl
    | store f a result => simp [Cache.answer, Cache.lastId_store] at hl
    | builtin b => cases b <;> cases hv
    | number => cases hv
    | stage held => cases hv
    | environment values => cases hv
  · exact h.captured id env body (old _ hv)

theorem Keeps.ask (h : Keeps t c) (proper : ∀ x ∈ r.operands, x ∈ t.items) :
    Keeps (t ++ [(r, (c.answer r).1)]) (c.answer r).2 where
  filed := h.filed_ask proper
  applications := h.applications_ask r
  results key v hv := by
    rw [Transcript.firstStored_concat, Option.or_eq_some_iff] at hv
    rw [Transcript.mem_items_concat]
    rcases hv with hv | ⟨-, hv⟩
    · exact .inl (h.results key v hv)
    · exact .inl (proper _ (Request.mem_operands_of_stored hv))
  id_le x hx := by
    rw [Transcript.mem_items_concat] at hx
    rcases h.answer_cases proper with ⟨y, hy, hid, hl⟩ | ⟨-, hl, old⟩
    · rcases hx with hx | hx
      · have := h.id_le x hx
        omega
      · cases hy.symm.trans hx
        omega
    · rw [hl]
      exact h.id_le x (hx.elim id (old x))
  id_inj x hx y hy hid := by
    rw [Transcript.mem_items_concat] at hx hy
    rcases h.answer_cases proper with ⟨z, hz, hn, -⟩ | ⟨-, -, old⟩
    · rcases hx with hx | hx <;> rcases hy with hy | hy
      · exact h.id_inj x hx y hy hid
      · cases hz.symm.trans hy
        have := h.id_le x hx
        omega
      · cases hz.symm.trans hx
        have := h.id_le y hy
        omega
      · exact Option.some.inj (hx.symm.trans hy)
    · exact h.id_inj x (hx.elim id (old x)) y (hy.elim id (old y)) hid
  values b hb v hv := by
    rw [Transcript.mem_items_concat] at hb ⊢
    exact .inl (hb.elim (h.values b · v hv) fun hb ↦ h.values_ask proper hb hv)
  captured id env body hv := by
    rw [Transcript.mem_items_concat] at hv ⊢
    exact .inl (hv.elim (h.captured id env body) (h.captured_ask proper))

end Step

/-- Whatever a cache served, it keeps. -/
theorem Served.keeps {t : Transcript} {c : Cache} (h : Served t c) : Keeps t c := by
  induction h with
  | new => exact keeps_new
  | ask _ proper ha ih =>
    have keeps := ih.ask proper
    rwa [ha] at keeps

/-! ### Canonical answers -/

/-- What a transcript shows of its cache. An item with the number of an earlier one is the earlier
one, and it did not have to be new. Environments are the same exactly if the numbers of their values
are, closures exactly if the numbers of environment and body are. A result is the one that was
stored first. -/
structure Transcript.Canonical (t : Transcript) : Prop where
  numbers : ∀ before r x after, t = before ++ (r, some x) :: after →
    ∀ y ∈ items before, y.id = x.id → y = x ∧ r.isFresh = false
  environment : ∀ values answer, (.environment values, answer) ∈ t →
    ∃ b, answer = some (.base b) ∧ b.values = values
  environments : ∀ values answer values' answer', (.environment values, answer) ∈ t →
    (.environment values', answer') ∈ t →
    (answer = answer' ↔ values.map Value.id = values'.map Value.id)
  closure : ∀ env body answer, (.closure env body, answer) ∈ t →
    ∃ id body', answer = some (.value (.closure id env body')) ∧ body'.id = body.id
  closures : ∀ env body answer env' body' answer', (.closure env body, answer) ∈ t →
    (.closure env' body', answer') ∈ t →
    (answer = answer' ↔ env.id = env'.id ∧ body.id = body'.id)
  lookup : ∀ before f a answer after, t = before ++ (.lookup f a, answer) :: after →
    answer = (firstStored before (f.id, a.id)).map .value
  store : ∀ before f a result answer after, t = before ++ (.store f a result, answer) :: after →
    answer = some (.value ((firstStored before (f.id, a.id)).getD result))

section Canonical

variable {t : Transcript} {c : Cache}

/-- An environment that was asked for holds the values that it was asked for. -/
theorem Served.environment (h : Served t c) {values : List Value} {answer : Option Item}
    (ha : (.environment values, answer) ∈ t) :
    ∃ b, answer = some (.base b) ∧ b.values = values := by
  obtain ⟨before, after, rfl⟩ := List.append_of_mem ha
  obtain ⟨c', served, proper, rfl⟩ := h.split
  refine ⟨_, rfl, ?_⟩
  have keeps := served.keeps
  exact Value.unique_list keeps.unique (fun v hv ↦ keeps.values_ask proper rfl hv)
    (fun v hv ↦ proper _ (List.mem_map_of_mem hv)) (keeps.filed.environment values).2

/-- A closure that was asked for has the environment that it was asked for and a body of the same
number. -/
theorem Served.closure (h : Served t c) {env : Base} {body : Expr} {answer : Option Item}
    (ha : (.closure env body, answer) ∈ t) :
    ∃ id body', answer = some (.value (.closure id env body')) ∧ body'.id = body.id := by
  obtain ⟨before, after, rfl⟩ := List.append_of_mem ha
  obtain ⟨c', served, proper, rfl⟩ := h.split
  have keeps := served.keeps
  have hk := (keeps.filed.closure env body).2
  obtain ⟨id, env', body', hv, ids⟩ := Value.closureKey?_eq_some hk
  obtain ⟨henv, hbody⟩ := Prod.mk.inj ids
  have answer : (c'.answer (.closure env body)).1 = some (.value (.closure id env' body')) := by
    rw [Cache.answer, hv]
  have hb := proper (.base env) (by simp [Request.operands])
  cases keeps.id_inj _ hb _ (keeps.captured_ask proper answer) henv
  exact ⟨id, body', answer, hbody.symm⟩

/-- Caches give canonical answers only. -/
theorem Served.canonical (h : Served t c) : t.Canonical where
  numbers before r x after ht y hy hid := by
    subst ht
    obtain ⟨c', served, proper, hx⟩ := h.split
    have keeps := served.keeps
    rcases keeps.answer_cases proper with ⟨z, hz, hn, -⟩ | ⟨hr, -, old⟩
    · cases hz.symm.trans hx
      have := keeps.id_le y hy
      omega
    · exact ⟨keeps.id_inj y hy x (old x hx) hid, hr⟩
  environment values answer ha := h.environment ha
  environments values answer values' answer' ha ha' := by
    obtain ⟨b, rfl, hb⟩ := h.environment ha
    obtain ⟨b', rfl, hb'⟩ := h.environment ha'
    constructor
    · intro he
      cases he
      rw [← hb, ← hb']
    · intro hids
      have made := Transcript.mem_items.mpr ⟨_, ha⟩
      have made' := Transcript.mem_items.mpr ⟨_, ha'⟩
      rw [← hb, ← hb'] at hids
      rw [h.keeps.filed.environments.unique made made' rfl
        (congrArg (some ∘ Key.pack) hids.symm)]
  closure env body answer ha := h.closure ha
  closures env body answer env' body' answer' ha ha' := by
    obtain ⟨id, e, rfl, he⟩ := h.closure ha
    obtain ⟨id', e', rfl, he'⟩ := h.closure ha'
    constructor
    · intro heq
      cases heq
      exact ⟨rfl, he.symm.trans he'⟩
    · rintro ⟨henv, hbody⟩
      have made := Transcript.mem_items.mpr ⟨_, ha⟩
      have made' := Transcript.mem_items.mpr ⟨_, ha'⟩
      have key : (env'.id, e'.id) = (env.id, e.id) := by rw [henv, he, he', hbody]
      rw [h.keeps.filed.closures.unique made made' rfl (congrArg some key)]
  lookup before f a answer after ht := by
    subst ht
    obtain ⟨c', served, -, rfl⟩ := h.split
    rw [Cache.answer, Cache.lookup, served.keeps.applications]
  store before f a result answer after ht := by
    subst ht
    obtain ⟨c', served, -, rfl⟩ := h.split
    rw [Cache.answer, ← served.keeps.applications]
    rcases c'.store_cases f a result with ⟨v, hs, he⟩ | ⟨hs, he⟩
    · rw [he, hs]
      rfl
    · rw [he, hs]
      rfl

end Canonical

/-! ### Values of one structure -/

mutual

/-- Whether two values have the same structure: closures are compared by body and captured values,
all other values by their numbers. -/
def Value.same : Value → Value → Bool
  | .closure _ env body, .closure _ env' body' => body.id == body'.id && Base.same env env'
  | .closure .., _ => false
  | _, .closure .. => false
  | v, w => v.id == w.id

/-- Whether two environments hold values of the same structure. -/
def Base.same : Base → Base → Bool
  | .mk _ values _, .mk _ values' _ => Value.sameAll values values'

/-- Whether two lists hold values of the same structure. -/
def Value.sameAll : List Value → List Value → Bool
  | [], [] => true
  | v :: vs, w :: ws => Value.same v w && Value.sameAll vs ws
  | _, _ => false

end

namespace Value

theorem same_closure (id id' : Nat) (env env' : Base) (body body' : Expr) :
    same (.closure id env body) (.closure id' env' body') = true ↔
      body.id = body'.id ∧ sameAll env.values env'.values = true := by
  cases env
  cases env'
  simp [same, Base.same, Base.values]

/-- Lists of values with the same structure are equal if their elements are. -/
theorem eq_of_sameAll {vs ws : List Value}
    (unique : ∀ v ∈ vs, ∀ w ∈ ws, v.same w = true → v = w) (h : sameAll vs ws = true) :
    vs = ws := by
  induction vs generalizing ws with
  | nil =>
    cases ws with
    | nil => rfl
    | cons w ws => simp [sameAll] at h
  | cons v vs ih =>
    cases ws with
    | nil => simp [sameAll] at h
    | cons w ws =>
      rw [sameAll, Bool.and_eq_true] at h
      have head := unique v List.mem_cons_self w List.mem_cons_self h.1
      have tail := ih (fun v hv w hw ↦ unique v (List.mem_cons_of_mem _ hv) w
        (List.mem_cons_of_mem _ hw)) h.2
      rw [head, tail]

theorem sameAll_self {vs : List Value} (h : ∀ v ∈ vs, v.same v = true) :
    sameAll vs vs = true := by
  induction vs with
  | nil => rfl
  | cons v vs ih =>
    rw [List.forall_mem_cons] at h
    rw [sameAll, h.1, ih h.2]
    rfl

theorem same_self (v : Value) : v.same v = true := by
  induction v using inside_induction with
  | closure id env body ih => exact (same_closure ..).mpr ⟨rfl, sameAll_self ih⟩
  | writer id bit => simp [same]
  | reader id held => simp [same]
  | probe id => simp [same]

/-- Values that are no closures are compared by their numbers. -/
theorem id_eq_of_same {v w : Value} (hv : v.closureKey? = none) (h : v.same w = true) :
    v.id = w.id := by
  cases v with
  | closure id env body => cases hv
  | writer id bit => cases w <;> simp_all [same]
  | reader id held => cases w <;> simp_all [same]
  | probe id => cases w <;> simp_all [same]

end Value

/-- In a sound cache, registered values of one structure are one value. -/
theorem Cache.Sound.eq_of_same {F : NodeFamily} {R : Registry F} {c : Cache} (h : c.Sound R)
    {v w : Value} (hv : R.Holds v) (hw : R.Holds w) (hs : v.same w = true) : v = w := by
  induction v using Value.inside_induction generalizing w with
  | closure id env body ih =>
    cases w with
    | closure id' env' body' =>
      -- By induction the captured values are the same, so the table of environments has one entry
      -- for both environments, and then the table of closures has one for both closures.
      obtain ⟨hbody, hvalues⟩ := (Value.same_closure ..).mp hs
      obtain ⟨henv, -⟩ := R.closure hv
      obtain ⟨henv', -⟩ := R.closure hw
      have values : env.values = env'.values :=
        Value.eq_of_sameAll (fun x hx y hy hxy ↦
          ih x hx (R.values henv x hx) (R.values henv' y hy) hxy) hvalues
      have bases : env = env' := h.environments.unique henv henv' rfl (by rw [values])
      exact h.closures.unique hv hw rfl (by rw [bases, hbody, Value.closureKey?])
    | writer id' bit => simp [Value.same] at hs
    | reader id' held => simp [Value.same] at hs
    | probe id' => simp [Value.same] at hs
  | writer id bit => exact hv.unique hw (Value.id_eq_of_same rfl hs)
  | reader id held => exact hv.unique hw (Value.id_eq_of_same rfl hs)
  | probe id => exact hv.unique hw (Value.id_eq_of_same rfl hs)

open Eval (Occurs)

/-- Caches give canonical answers only, whatever they are asked for. Hence in every run of a program
with a root in any graph built by operations, two values that occur are one and the same exactly if
they have the same structure: closures with one body that capture values of the same structure are
one closure. -/
theorem caches_canonical :
    (∀ (t : Transcript) (c : Cache), Served t c → t.Canonical) ∧
      ∀ (a : Arena) (p : Program) (root : Expr) (s : Session) (c : Eval.Call),
        a.Built (fun _ ↦ True) → p.root = some root → root ∈ a.graph.nodes →
        s.start p = some c → ∀ v w, Occurs s.plan c v → Occurs s.plan c w →
        (v.same w = true ↔ v = w) := by
  constructor
  · intro t c served
    exact served.canonical
  · intro a p root s c built rooted mem starts v w hv hw
    obtain ⟨⟨env, bound⟩, -⟩ := Session.bound_of_start starts
    have lawful := built.wellFormed.toLawful
    have closed : p.ClosedIn lawful.family :=
      ⟨Cache.allBuiltin_of_bind bound, root, rooted, mem⟩
    obtain ⟨R, R', spans, sound⟩ := closed.spans_sound starts
    constructor
    · exact sound.eq_of_same (spans.occurs hv) (spans.occurs hw)
    · rintro rfl
      exact v.same_self

/-- A cache is asked twice for the environment of a writer and is told two results of one
application: it gives one environment and keeps to the first result. In the run, the identity is
closed twice. -/
theorem caches_canonical_again :
    (∃ (t : Transcript) (c : Cache) (x y z : Option Item), Served t c ∧
        t[2]? = some (.environment [.writer 1 true], x) ∧
        t[3]? = some (.environment [.writer 1 true], y) ∧ x = y ∧
        t[4]? = some (.store (.probe 2) (.probe 2) (.writer 1 true),
          some (.value (.writer 1 true))) ∧
        t[5]? = some (.store (.probe 2) (.probe 2) (.probe 2), z) ∧
        z = some (.value (.writer 1 true))) ∧
      ∃ p last c c₁ c₂ v w,
        Program.compile (lit "t") (lit "(\\x x) (\\x x)") 0 = .ok (p, last) ∧
        (({} : Session).atDepth 4).start p = some c ∧ c₁ ∈ c.asks {} ∧ c₂ ∈ c.asks {} ∧
        c₁.w.cache.lastId = 1 ∧ c₂.w.cache.lastId = 2 ∧ (c₁.result {}).1 = .value v ∧
        (c₂.result {}).1 = .value w ∧ v.value = w.value := by
  constructor
  · obtain ⟨c₁, c₂, c₃, c₄, c₅, c₆, x, y, z, h₁, h₂, h₃, h₄, h₅, h₆⟩ :
        ∃ c₁ c₂ c₃ c₄ c₅ c₆ x y z,
          Cache.answer {} (.builtin .writeOne) = (some (.value (.writer 1 true)), c₁) ∧
          c₁.answer (.builtin .debug) = (some (.value (.probe 2)), c₂) ∧
          c₂.answer (.environment [.writer 1 true]) = (x, c₃) ∧
          c₃.answer (.environment [.writer 1 true]) = (y, c₄) ∧
          c₄.answer (.store (.probe 2) (.probe 2) (.writer 1 true)) =
            (some (.value (.writer 1 true)), c₅) ∧
          c₅.answer (.store (.probe 2) (.probe 2) (.probe 2)) = (z, c₆) :=
      ⟨_, _, _, _, _, _, _, _, _, by cbv, by cbv, by cbv, by cbv, by cbv, by cbv⟩
    have served := Served.new.ask (by simp [Request.operands]) h₁
    have served := served.ask (by simp [Request.operands]) h₂
    have served := served.ask (by simp [Request.operands, Transcript.items]) h₃
    have served := served.ask (by simp [Request.operands, Transcript.items]) h₄
    have served := served.ask (by simp [Request.operands, Transcript.items]) h₅
    have served := served.ask (by simp [Request.operands, Transcript.items]) h₆
    have canonical := caches_canonical.1 _ _ served
    refine ⟨_, _, x, y, z, served, rfl, rfl, ?_, rfl, rfl, ?_⟩
    · exact (canonical.environments [.writer 1 true] x [.writer 1 true] y (by simp)
        (by simp)).mpr rfl
    · exact canonical.store _ _ _ _ z [] rfl
  · obtain ⟨p, last, c, c₁, c₂, v, w, rest, compiled, starts, rooted, asks, h₁, h₂, hv, hw, same⟩ :
        ∃ p last c c₁ c₂ v w rest,
          Program.compile (lit "t") (lit "(\\x x) (\\x x)") 0 = .ok (p, last) ∧
          (({} : Session).atDepth 4).start p = some c ∧ p.root = some c.e ∧
          c.asks {} = c₁ :: c₂ :: rest ∧ c₁.w.cache.lastId = 1 ∧ c₂.w.cache.lastId = 2 ∧
          (c₁.result {}).1 = .value v ∧ (c₂.result {}).1 = .value w ∧
          v.value.same w.value = true :=
      ⟨_, _, _, _, _, _, _, _, by cbv, by cbv, by cbv, by cbv, by cbv, by cbv, by cbv, by cbv,
        by cbv⟩
    have built := Program.built_of_compile compiled rooted
    have first : c₁ ∈ c.asks {} := by simp [asks]
    have second : c₂ ∈ c.asks {} := by simp [asks]
    refine ⟨p, last, c, c₁, c₂, v, w, compiled, starts, first, second, h₁, h₂, hv, hw, ?_⟩
    exact (caches_canonical.2 _ p c.e _ c (built.1.mono fun _ _ ↦ trivial) rooted built.2 starts
      v.value w.value (.answer (.step first (.refl c₁)) hv)
      (.answer (.step second (.refl c₂)) hw)).mp same
end BitCalculus
