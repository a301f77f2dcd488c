import BitCalculus.Program
import BitCalculus.Proofs.Graph.Nodes

/-!
# Resolving names

A scope only grows, so a slot that was handed out keeps its name, and no name gets two slots. The
node of a tree reads slots of the scope that the tree leaves behind and of no larger one, although
the scope may still have been growing when the node was made. Interning a tree again gives the same
node and changes nothing.
-/

namespace BitCalculus

namespace Scope

/-- The name in a slot. -/
def nameAt? (s : Scope) (slot : Nat) : Option Bytes :=
  s[slot]?.map Token.text

/-- No two slots of the scope have the same name. -/
def Distinct (s : Scope) : Prop :=
  (s.map Token.text).Nodup

/-- A name keeps its slot while the scope grows. -/
theorem nameAt?_mono {s s' : Scope} (h : s <+: s') {slot : Nat} {name : Bytes}
    (hn : s.nameAt? slot = some name) : s'.nameAt? slot = some name := by
  obtain ⟨token, ht, rfl⟩ := Option.map_eq_some_iff.mp hn
  obtain ⟨more, rfl⟩ := h
  rw [nameAt?, List.getElem?_append_left (List.getElem?_eq_some_iff.mp ht).1, ht, Option.map_some]

/-- A slot with a name lies inside the scope. -/
theorem lt_of_nameAt? {s : Scope} {slot : Nat} {name : Bytes} (h : s.nameAt? slot = some name) :
    slot < s.length := by
  obtain ⟨token, ht, -⟩ := Option.map_eq_some_iff.mp h
  exact (List.getElem?_eq_some_iff.mp ht).1

theorem grows_resolve (s : Scope) (token : Token) : s <+: (s.resolve token).2 := by
  unfold resolve
  split
  · exact List.prefix_rfl
  · exact List.prefix_append _ _

/-- A resolved name stands in the slot that it was given. -/
theorem nameAt?_resolve (s : Scope) (token : Token) :
    (s.resolve token).2.nameAt? (s.resolve token).1 = some token.text := by
  unfold resolve
  split
  · next slot hs =>
    obtain ⟨hlt, ht, -⟩ := List.findIdx?_eq_some_iff_getElem.mp hs
    rw [nameAt?, List.getElem?_eq_getElem hlt, Option.map_some, eq_of_beq ht]
  · rw [nameAt?, List.getElem?_concat_length, Option.map_some]

/-- Resolving a name gives no name a second slot. -/
theorem distinct_resolve {s : Scope} (h : s.Distinct) (token : Token) :
    (s.resolve token).2.Distinct := by
  unfold resolve
  split
  · exact h
  · next hs =>
    rw [Distinct, List.map_append, List.nodup_append]
    refine ⟨h, by simp, ?_⟩
    intro name hname name' hname' he
    obtain ⟨t, ht, rfl⟩ := List.mem_map.mp hname
    rw [List.map_singleton, List.mem_singleton] at hname'
    have hne := List.findIdx?_eq_none_iff.mp hs t ht
    rw [he, hname'] at hne
    simp at hne

/-- The names of a scope after a resolution are those before it and the resolved one. -/
theorem mem_resolve {s : Scope} {token t : Token} (h : t ∈ (s.resolve token).2) :
    t ∈ s ∨ t.text = token.text := by
  unfold resolve at h
  split at h
  · exact .inl h
  · rcases List.mem_append.mp h with h | h
    · exact .inl h
    · exact .inr (congrArg Token.text (List.mem_singleton.mp h))

theorem grows_resolveAll (s : Scope) (tokens : List Token) : s <+: (s.resolveAll tokens).2 := by
  induction tokens generalizing s with
  | nil => exact List.prefix_rfl
  | cons token tokens ih => exact (grows_resolve s token).trans (ih _)

/-- Every resolved name stands in the slot that it was given. -/
theorem map_nameAt?_resolveAll (s : Scope) (tokens : List Token) :
    (s.resolveAll tokens).1.map (s.resolveAll tokens).2.nameAt? =
      tokens.map fun t ↦ some t.text := by
  induction tokens generalizing s with
  | nil => rfl
  | cons token tokens ih =>
    have hp := grows_resolveAll (s.resolve token).2 tokens
    rw [resolveAll, List.map_cons, List.map_cons, ih, nameAt?_mono hp (nameAt?_resolve s token)]

/-- The slot that one of several names was given. -/
theorem exists_slot_resolveAll (s : Scope) {tokens : List Token} {i : Nat} {token : Token}
    (h : tokens[i]? = some token) :
    ∃ slot, (s.resolveAll tokens).1[i]? = some slot ∧
      (s.resolveAll tokens).2.nameAt? slot = some token.text := by
  have hi := congrArg (·[i]?) (map_nameAt?_resolveAll s tokens)
  simp only [List.getElem?_map, h, Option.map_some] at hi
  exact Option.map_eq_some_iff.mp hi

/-- Resolving several names gives no name a second slot. -/
theorem distinct_resolveAll {s : Scope} (h : s.Distinct) (tokens : List Token) :
    (s.resolveAll tokens).2.Distinct := by
  induction tokens generalizing s with
  | nil => exact h
  | cons token tokens ih => exact ih (distinct_resolve h token)

/-- The names of a scope after resolutions are those before them and the resolved ones. -/
theorem mem_resolveAll {s : Scope} {tokens : List Token} {t : Token}
    (h : t ∈ (s.resolveAll tokens).2) : t ∈ s ∨ ∃ t' ∈ tokens, t.text = t'.text := by
  induction tokens generalizing s with
  | nil => exact .inl h
  | cons token tokens ih =>
    rcases ih h with h | ⟨t', ht', he⟩
    · rcases mem_resolve h with h | h
      · exact .inl h
      · exact .inr ⟨token, List.mem_cons_self, h⟩
    · exact .inr ⟨t', List.mem_cons_of_mem _ ht', he⟩

/-- The slots that resolutions give lie inside the scope that they leave. -/
theorem lt_of_mem_resolveAll {s : Scope} {tokens : List Token} {slot : Nat}
    (h : slot ∈ (s.resolveAll tokens).1) : slot < (s.resolveAll tokens).2.length := by
  have hm := List.mem_map_of_mem (f := (s.resolveAll tokens).2.nameAt?) h
  rw [map_nameAt?_resolveAll] at hm
  obtain ⟨t, -, ht⟩ := List.mem_map.mp hm
  exact lt_of_nameAt? ht.symm

/-- Resolving names adds at most these names to the scope. -/
theorem length_resolveAll_le (s : Scope) (tokens : List Token) :
    (s.resolveAll tokens).2.length ≤ s.length + tokens.length := by
  induction tokens generalizing s with
  | nil => exact Nat.le_refl _
  | cons token tokens ih =>
    have hs : (s.resolve token).2.length ≤ s.length + 1 := by
      unfold resolve
      split <;> simp
    have ht := ih (s.resolve token).2
    rw [resolveAll, List.length_cons]
    dsimp only
    omega

/-- Each name is given one slot. -/
theorem length_resolveAll (s : Scope) (tokens : List Token) :
    (s.resolveAll tokens).1.length = tokens.length := by
  have h := congrArg List.length (map_nameAt?_resolveAll s tokens)
  rwa [List.length_map, List.length_map] at h

end Scope

namespace Expr

/-- All slots of an expression lie inside an environment of `n` values, and those of a body inside
the environment of its closure. -/
def Scoped (n : Nat) : Expr → Prop
  | slot _ index => 0 ≤ index ∧ index < n
  | lambda _ captured body _ _ =>
    (∀ i ∈ captured, 0 ≤ i ∧ i < n) ∧ body.Scoped (captured.length + 1)
  | apply _ function argument _ _ => function.Scoped n ∧ argument.Scoped n

/-- A larger environment does no harm. -/
theorem Scoped.mono {e : Expr} {n m : Nat} (h : e.Scoped n) (le : n ≤ m) : e.Scoped m := by
  induction e with
  | slot id index => exact ⟨h.1, by have := h.2; omega⟩
  | lambda id captured body reads size ih =>
    refine ⟨?_, h.2⟩
    intro i hi
    have := h.1 i hi
    omega
  | apply id function argument reads size ihf iha => exact ⟨ihf h.1, iha h.2⟩

end Expr

/-- The names that occur in a tree outside of all abstractions over them. -/
def Tree.freeNames : Tree → List Bytes
  | .name token => [token.text]
  | .lambda _ parameter body => body.freeNames.filter (· ≠ parameter.text)
  | .apply function argument => function.freeNames ++ argument.freeNames

/-- Lawful nodes in environments that have all their slots are a family. -/
def Lawful.scopedFamily {ok : Int → Prop} {nodes : Array Expr} {lastId : Nat}
    (h : Lawful ok nodes lastId) : NodeFamily where
  admits n e := e ∈ nodes ∧ e.Scoped n
  body he := ⟨(h.rests _ he.1).1, he.2.2⟩
  function he := ⟨(h.rests _ he.1).1, he.2.1⟩
  argument he := ⟨(h.rests _ he.1).2.1, he.2.2⟩
  reads_lambda he := (h.rests _ he.1).2.2
  reads_apply he := (h.rests _ he.1).2.2
  id_inj hd he := h.id_inj _ hd.1 _ he.1

/-- Nodes in environments that have all their slots read no other slot. -/
theorem Lawful.inRange_scopedFamily {ok : Int → Prop} {nodes : Array Expr} {lastId : Nat}
    (h : Lawful ok nodes lastId) : h.scopedFamily.InRange := by
  intro n e he i hi
  induction e with
  | slot id index =>
    rw [Expr.reads, List.mem_singleton] at hi
    rw [hi]
    exact he.2
  | lambda id captured body reads size ih =>
    exact he.2.1 i ((h.scopedFamily.reads_lambda he i).mp hi)
  | apply id function argument reads size ihf iha =>
    rcases (h.scopedFamily.reads_apply he i).mp hi with hi | hi
    · exact ihf (h.scopedFamily.function he) hi
    · exact iha (h.scopedFamily.argument he) hi

namespace Arena

section Equations

variable (a : Arena) (s : Scope)

theorem internIn_name (token : Token) :
    a.internIn s (.name token) =
      ((a.slot (s.resolve token).1).1, (s.resolve token).2, (a.slot (s.resolve token).1).2) := rfl

theorem internIn_lambda (start parameter : Token) (body : Tree) {node : Expr} {inner : Scope}
    {a' : Arena} (h : a.internIn [parameter] body = (node, inner, a')) :
    a.internIn s (.lambda start parameter body) =
      ((a'.lambda ((s.resolveAll inner.tail).1.map Int.ofNat) node).1, (s.resolveAll inner.tail).2,
        (a'.lambda ((s.resolveAll inner.tail).1.map Int.ofNat) node).2) := by
  rw [internIn, h]

theorem internIn_apply (function argument : Tree) {f x : Expr} {s₁ s₂ : Scope} {a₁ a₂ : Arena}
    (hf : a.internIn s function = (f, s₁, a₁)) (hx : a₁.internIn s₁ argument = (x, s₂, a₂)) :
    a.internIn s (.apply function argument) = ((a₂.apply f x).1, s₂, (a₂.apply f x).2) := by
  rw [internIn, hf]
  dsimp only
  rw [hx]

end Equations

/-- Interning gives no name a second slot. -/
theorem distinct_internIn {a : Arena} {s : Scope} {t : Tree} {node : Expr} {s' : Scope} {a' : Arena}
    (hs : s.Distinct) (ht : a.internIn s t = (node, s', a')) : s'.Distinct := by
  induction t generalizing a s node s' a' with
  | name token =>
    rw [internIn_name] at ht
    obtain ⟨-, rfl, -⟩ := by simpa only [Prod.mk.injEq] using ht
    exact Scope.distinct_resolve hs token
  | lambda start parameter body ih =>
    rcases hb : a.internIn [parameter] body with ⟨bodyNode, inner, a₁⟩
    rw [internIn_lambda a s start parameter body hb] at ht
    obtain ⟨-, rfl, -⟩ := by simpa only [Prod.mk.injEq] using ht
    exact Scope.distinct_resolveAll hs inner.tail
  | apply function argument ihf ihx =>
    rcases hf : a.internIn s function with ⟨f, s₁, a₁⟩
    rcases hx : a₁.internIn s₁ argument with ⟨x, s₂, a₂⟩
    rw [internIn_apply a s function argument hf hx] at ht
    obtain ⟨-, rfl, -⟩ := by simpa only [Prod.mk.injEq] using ht
    exact ihx (ihf hs hf) hx

/-- What interning a tree in the scope `s` did: the arena kept everything and was built by
operations, the scope grew, and the node reads slots of the scope that is left. -/
structure Interned (a : Arena) (s : Scope) (node : Expr) (s' : Scope) (a' : Arena) : Prop where
  keeps : a.Extends a'
  built : a'.Built (0 ≤ ·)
  mem : node ∈ a'.graph.nodes
  grows : s <+: s'
  inScope : node.Scoped s'.length

/-- Captured slots that are positions in a scope are natural. -/
theorem captured_nonneg (captured : List Nat) : ∀ i ∈ captured.map Int.ofNat, 0 ≤ i := by
  intro i hi
  obtain ⟨n, -, rfl⟩ := List.mem_map.mp hi
  exact Int.natCast_nonneg n

private theorem interned_lambda {a : Arena} {parameter : Token} {node : Expr} {inner : Scope}
    {a' : Arena} (s : Scope) (hb : a.Interned [parameter] node inner a') :
    a.Interned s (a'.lambda ((s.resolveAll inner.tail).1.map Int.ofNat) node).1
      (s.resolveAll inner.tail).2
      (a'.lambda ((s.resolveAll inner.tail).1.map Int.ofNat) node).2 := by
  have hc := captured_nonneg (s.resolveAll inner.tail).1
  have made := (made_lambda hb.built.wellFormed hb.mem hc).1
  obtain ⟨id, reads, size, hn⟩ := lambda_content hb.built.wellFormed hb.mem hc
  refine ⟨hb.keeps.trans made.keeps, .lambda hb.built hb.mem hc, made.mem,
    Scope.grows_resolveAll s _, ?_⟩
  rw [hn]
  refine ⟨?_, hb.inScope.mono ?_⟩
  · intro i hi
    obtain ⟨n, hm, rfl⟩ := List.mem_map.mp hi
    have hlt := Scope.lt_of_mem_resolveAll hm
    exact ⟨Int.natCast_nonneg n, by simpa using hlt⟩
  · rw [List.length_map, Scope.length_resolveAll, List.length_tail]
    omega

private theorem interned_apply {a a₁ a₂ : Arena} {s s₁ s₂ : Scope} {f x : Expr}
    (hf : a.Interned s f s₁ a₁) (hx : a₁.Interned s₁ x s₂ a₂) :
    a.Interned s (a₂.apply f x).1 s₂ (a₂.apply f x).2 := by
  have hm := hx.keeps.nodes f hf.mem
  have made := (made_apply hx.built.wellFormed hm hx.mem).1
  obtain ⟨id, reads, size, hn⟩ := apply_content hx.built.wellFormed hm hx.mem
  refine ⟨(hf.keeps.trans hx.keeps).trans made.keeps, .apply hx.built hm hx.mem, made.mem,
    hf.grows.trans hx.grows, ?_⟩
  rw [hn]
  exact ⟨hf.inScope.mono hx.grows.length_le, hx.inScope⟩

/-- Interning any tree in any scope of an arena with natural captures. -/
theorem interned_of_internIn {a : Arena} (h : a.Built (0 ≤ ·)) {s : Scope} {t : Tree} {node : Expr}
    {s' : Scope} {a' : Arena} (ht : a.internIn s t = (node, s', a')) :
    a.Interned s node s' a' := by
  induction t generalizing a s node s' a' with
  | name token =>
    rw [internIn_name] at ht
    obtain ⟨rfl, rfl, rfl⟩ := by simpa only [Prod.mk.injEq] using ht
    have made := (made_slot h.wellFormed ((s.resolve token).1 : Int)).1
    obtain ⟨id, hn⟩ := slot_content h.wellFormed ((s.resolve token).1 : Int)
    have hlt := Scope.lt_of_nameAt? (Scope.nameAt?_resolve s token)
    refine ⟨made.keeps, .slot h _, made.mem, Scope.grows_resolve s token, ?_⟩
    rw [hn]
    exact ⟨Int.natCast_nonneg _, by omega⟩
  | lambda start parameter body ih =>
    rcases hb : a.internIn [parameter] body with ⟨bodyNode, inner, a₁⟩
    rw [internIn_lambda a s start parameter body hb] at ht
    obtain ⟨rfl, rfl, rfl⟩ := by simpa only [Prod.mk.injEq] using ht
    exact interned_lambda s (ih h hb)
  | apply function argument ihf ihx =>
    rcases hf : a.internIn s function with ⟨f, s₁, a₁⟩
    rcases hx : a₁.internIn s₁ argument with ⟨x, s₂, a₂⟩
    rw [internIn_apply a s function argument hf hx] at ht
    obtain ⟨rfl, rfl, rfl⟩ := by simpa only [Prod.mk.injEq] using ht
    exact interned_apply (ihf h hf) (ihx (ihf h hf).built hx)

/-- The scope of a body is its parameter and names that differ from it. -/
theorem scope_body {a : Arena} (h : a.Built (0 ≤ ·)) {parameter : Token} {body : Tree} {node : Expr}
    {inner : Scope} {a' : Arena} (hb : a.internIn [parameter] body = (node, inner, a')) :
    inner = parameter :: inner.tail ∧ ∀ t ∈ inner.tail, t.text ≠ parameter.text := by
  obtain ⟨rest, rfl⟩ := (interned_of_internIn h hb).grows
  have distinct : Scope.Distinct ([parameter] ++ rest) :=
    distinct_internIn (by simp [Scope.Distinct]) hb
  refine ⟨rfl, fun t ht he ↦ ?_⟩
  rw [Scope.Distinct, List.singleton_append, List.map_cons, List.nodup_cons] at distinct
  exact distinct.1 (he ▸ List.mem_map_of_mem ht)

/-- The names that interning a tree adds to a scope are free in the tree. -/
theorem free_of_mem_internIn {a : Arena} (h : a.Built (0 ≤ ·)) {s : Scope} {t : Tree} {node : Expr}
    {s' : Scope} {a' : Arena} (ht : a.internIn s t = (node, s', a')) {token : Token}
    (hm : token ∈ s') : token ∈ s ∨ token.text ∈ t.freeNames := by
  induction t generalizing a s node s' a' token with
  | name name =>
    rw [internIn_name] at ht
    obtain ⟨-, rfl, -⟩ := by simpa only [Prod.mk.injEq] using ht
    exact (Scope.mem_resolve hm).imp_right List.mem_singleton.mpr
  | lambda start parameter body ih =>
    rcases hb : a.internIn [parameter] body with ⟨bodyNode, inner, a₁⟩
    rw [internIn_lambda a s start parameter body hb] at ht
    obtain ⟨-, rfl, -⟩ := by simpa only [Prod.mk.injEq] using ht
    rcases Scope.mem_resolveAll hm with hm | ⟨t, hin, he⟩
    · exact .inl hm
    · obtain ⟨-, apart⟩ := scope_body h hb
      have hne := apart t hin
      rcases ih h hb (List.mem_of_mem_tail hin) with hp | hf
      · exact absurd (congrArg Token.text (List.mem_singleton.mp hp)) hne
      · rw [he]
        exact .inr (List.mem_filter.mpr ⟨hf, decide_eq_true hne⟩)
  | apply function argument ihf ihx =>
    rcases hf : a.internIn s function with ⟨f, s₁, a₁⟩
    rcases hx : a₁.internIn s₁ argument with ⟨x, s₂, a₂⟩
    rw [internIn_apply a s function argument hf hx] at ht
    obtain ⟨-, rfl, -⟩ := by simpa only [Prod.mk.injEq] using ht
    rcases ihx (interned_of_internIn h hf).built hx hm with hm | hm
    · exact (ihf h hf hm).imp_right (List.mem_append_left _)
    · exact .inr (List.mem_append_right _ hm)

/-- Interning a tree again, in an arena that has what the first time left, gives the same node and
the same scope and changes nothing. -/
theorem internIn_again {a b : Arena} (h : a.Built (0 ≤ ·)) {s : Scope} {t : Tree} {node : Expr}
    {s' : Scope} {a' : Arena} (ht : a.internIn s t = (node, s', a')) (keeps : a'.Extends b) :
    b.internIn s t = (node, s', b) := by
  induction t generalizing a b s node s' a' with
  | name token =>
    rw [internIn_name] at ht
    obtain ⟨rfl, rfl, rfl⟩ := by simpa only [Prod.mk.injEq] using ht
    rw [internIn_name, slot_again h.wellFormed _ keeps]
  | lambda start parameter body ih =>
    rcases hb : a.internIn [parameter] body with ⟨bodyNode, inner, a₁⟩
    rw [internIn_lambda a s start parameter body hb] at ht
    obtain ⟨rfl, rfl, rfl⟩ := by simpa only [Prod.mk.injEq] using ht
    have done := interned_of_internIn h hb
    have hc := captured_nonneg (s.resolveAll inner.tail).1
    have made := (made_lambda done.built.wellFormed done.mem hc).1
    rw [internIn_lambda b s start parameter body (ih h hb (made.keeps.trans keeps)),
      lambda_again done.built.wellFormed done.mem hc keeps]
  | apply function argument ihf ihx =>
    rcases hf : a.internIn s function with ⟨f, s₁, a₁⟩
    rcases hx : a₁.internIn s₁ argument with ⟨x, s₂, a₂⟩
    rw [internIn_apply a s function argument hf hx] at ht
    obtain ⟨rfl, rfl, rfl⟩ := by simpa only [Prod.mk.injEq] using ht
    have doneF := interned_of_internIn h hf
    have doneX := interned_of_internIn doneF.built hx
    have hm := doneX.keeps.nodes f doneF.mem
    have made := (made_apply doneX.built.wellFormed hm doneX.mem).1
    have keepsX := made.keeps.trans keeps
    rw [internIn_apply b s function argument (ihf h hf (doneX.keeps.trans keepsX))
        (ihx doneF.built hx keepsX),
      apply_again doneX.built.wellFormed hm doneX.mem keeps]

end Arena

/-- A compiled program is a tree that was interned in an arena without nodes. -/
theorem Program.intern_of_compile {source text : Bytes} {lastId last : Nat} {p : Program}
    (hc : compile source text lastId = .ok (p, last)) :
    ∃ tree root, Arena.intern { lastId } tree = (root, p.free, ⟨p.graph, last⟩) ∧
      p = ⟨source, p.graph, some root, p.free⟩ := by
  unfold compile at hc
  split at hc
  · cases hc
  · next tree _ =>
    rcases hi : Arena.intern { lastId } tree with ⟨root, free, a'⟩
    rw [hi] at hc
    cases hc
    exact ⟨tree, root, hi, rfl⟩

/-- The graph of a compiled program was built by operations and has its root. -/
theorem Program.built_of_compile {source text : Bytes} {lastId last : Nat} {p : Program}
    {root : Expr} (hc : compile source text lastId = .ok (p, last)) (hr : p.root = some root) :
    Arena.Built (0 ≤ ·) ⟨p.graph, last⟩ ∧ root ∈ p.graph.nodes := by
  obtain ⟨tree, root', hi, hp⟩ := intern_of_compile hc
  rw [hp] at hr
  cases hr
  have interned := Arena.interned_of_internIn (.empty lastId) hi
  exact ⟨interned.built, interned.mem⟩

end BitCalculus
