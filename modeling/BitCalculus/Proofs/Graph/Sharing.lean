import BitCalculus.Proofs.Graph.Resolve
import BitCalculus.Proofs.Source.Grammar

/-!
# Every shape once

The shape of a node is the expression that it stands for, without numbers. A graph finds each of
its nodes by content, so a shape that is there is found again and no graph has two nodes of one
shape. The shape of a tree follows from its names alone, whatever graph it is interned in: interning
gives a node of this shape, and it changes nothing if there was one.
-/

namespace BitCalculus

/-- An expression without numbers. -/
inductive Shape where
  | slot (index : Int)
  | lambda (captured : List Int) (body : Shape)
  | apply (function argument : Shape)
deriving DecidableEq

/-- The expression that a node stands for. -/
def Expr.shape : Expr → Shape
  | slot _ index => .slot index
  | lambda _ captured body _ _ => .lambda captured body.shape
  | apply _ function argument _ _ => .apply function.shape argument.shape

namespace Arena

/-! ### Sequences of operations -/

/-- Operations lead from one arena to another. Captured slots satisfy `ok`, parts are nodes of the
same graph, and other graphs may take numbers in between. -/
inductive Leads (ok : Int → Prop) (a : Arena) : Arena → Prop
  | refl : Leads ok a a
  | later {b : Arena} {n : Nat} (h : Leads ok a b) (le : b.lastId ≤ n) :
      Leads ok a { b with lastId := n }
  | slot {b : Arena} (h : Leads ok a b) (i : Int) : Leads ok a (b.slot i).2
  | lambda {b : Arena} {captured : List Int} {body : Expr} (h : Leads ok a b)
      (hb : body ∈ b.graph.nodes) (hc : ∀ i ∈ captured, ok i) :
      Leads ok a (b.lambda captured body).2
  | apply {b : Arena} {function argument : Expr} (h : Leads ok a b)
      (hf : function ∈ b.graph.nodes) (ha : argument ∈ b.graph.nodes) :
      Leads ok a (b.apply function argument).2

section Leads

variable {ok : Int → Prop} {a b c : Arena}

theorem Leads.trans (h : a.Leads ok b) (h' : b.Leads ok c) : a.Leads ok c := by
  induction h' with
  | refl => exact h
  | later _ le ih => exact .later ih le
  | slot _ i ih => exact .slot ih i
  | lambda _ hb hc ih => exact .lambda ih hb hc
  | apply _ hf ha ih => exact .apply ih hf ha

theorem Leads.built (h : a.Leads ok b) (ha : a.Built ok) : b.Built ok := by
  induction h with
  | refl => exact ha
  | later _ le ih => exact .later ih le
  | slot _ i ih => exact .slot ih i
  | lambda _ hb hc ih => exact .lambda ih hb hc
  | apply _ hf ha ih => exact .apply ih hf ha

/-- Operations keep everything that is there. -/
theorem Leads.keeps (h : a.Leads ok b) (ha : a.Built ok) : a.Extends b := by
  induction h with
  | refl => exact .refl a
  | later _ le ih => exact ⟨ih.nodes, ih.slots, ih.lambdas, ih.applies⟩
  | slot h i ih => exact ih.trans (made_slot (h.built ha).wellFormed i).1.keeps
  | lambda h hb hc ih => exact ih.trans (made_lambda (h.built ha).wellFormed hb hc).1.keeps
  | apply h hf hx ih => exact ih.trans (made_apply (h.built ha).wellFormed hf hx).1.keeps

end Leads

/-! ### Nodes are found by content -/

/-- The node is found under the key of its content. -/
def Finds (a : Arena) : Expr → Prop
  | .slot id index => a.graph.slots[index]? = some (.slot id index)
  | .lambda id captured body reads size =>
    a.graph.lambdas[(body.id, Key.ofSlots captured)]? = some (.lambda id captured body reads size)
  | .apply id function argument reads size =>
    a.graph.applies[(function.id, argument.id)]? = some (.apply id function argument reads size)

theorem Finds.mono {a b : Arena} {n : Expr} (h : a.Finds n) (keeps : a.Extends b) : b.Finds n := by
  cases n with
  | slot id index => exact keeps.slots _ _ h
  | lambda id captured body reads size => exact keeps.lambdas _ _ h
  | apply id function argument reads size => exact keeps.applies _ _ h

section Operations

variable {ok : Int → Prop} {a : Arena} {n : Expr}

/-- Asking for a slot adds no other node than the one that is returned, which is found from then
on. -/
theorem finds_slot (h : a.WellFormed ok) (i : Int) (hn : n ∈ (a.slot i).2.graph.nodes) :
    n ∈ a.graph.nodes ∨ (a.slot i).2.Finds n := by
  obtain ⟨made, listed⟩ := made_slot h i
  refine (makes_slot a i).mem hn |>.imp_right fun he ↦ ?_
  obtain ⟨-, id, hs⟩ := made.wellFormed.slots i _ listed
  rw [hs] at listed
  rw [he, hs]
  exact listed

/-- Asking for an abstraction adds no other node than the one that is returned, which is found from
then on. -/
theorem finds_lambda (h : a.WellFormed ok) {captured : List Int} {body : Expr}
    (hb : body ∈ a.graph.nodes) (hc : ∀ i ∈ captured, ok i)
    (hn : n ∈ (a.lambda captured body).2.graph.nodes) :
    n ∈ a.graph.nodes ∨ (a.lambda captured body).2.Finds n := by
  obtain ⟨made, listed⟩ := made_lambda h hb hc
  refine (makes_lambda a captured hb).mem hn |>.imp_right fun he ↦ ?_
  obtain ⟨-, id, captured', body', reads, size, hs, hk⟩ := made.wellFormed.lambdas _ _ listed
  rw [hk, hs] at listed
  rw [he, hs]
  exact listed

/-- Asking for an application adds no other node than the one that is returned, which is found from
then on. -/
theorem finds_apply (h : a.WellFormed ok) {function argument : Expr}
    (hf : function ∈ a.graph.nodes) (ha : argument ∈ a.graph.nodes)
    (hn : n ∈ (a.apply function argument).2.graph.nodes) :
    n ∈ a.graph.nodes ∨ (a.apply function argument).2.Finds n := by
  obtain ⟨made, listed⟩ := made_apply h hf ha
  refine (makes_apply a hf ha).mem hn |>.imp_right fun he ↦ ?_
  obtain ⟨-, id, function', argument', reads, size, hs, hk⟩ := made.wellFormed.applies _ _ listed
  rw [hk, hs] at listed
  rw [he, hs]
  exact listed

end Operations

/-- Every node of a graph that was built by operations is found by its content. -/
theorem Built.finds {ok : Int → Prop} {a : Arena} (h : a.Built ok) {n : Expr}
    (hn : n ∈ a.graph.nodes) : a.Finds n := by
  induction h with
  | empty lastId => simp at hn
  | later h le ih => exact (ih hn).mono ⟨fun _ h ↦ h, fun _ _ h ↦ h, fun _ _ h ↦ h, fun _ _ h ↦ h⟩
  | slot h i ih =>
    rcases finds_slot h.wellFormed i hn with hn | found
    · exact (ih hn).mono (made_slot h.wellFormed i).1.keeps
    · exact found
  | lambda h hb hc ih =>
    rcases finds_lambda h.wellFormed hb hc hn with hn | found
    · exact (ih hn).mono (made_lambda h.wellFormed hb hc).1.keeps
    · exact found
  | apply h hf ha ih =>
    rcases finds_apply h.wellFormed hf ha hn with hn | found
    · exact (ih hn).mono (made_apply h.wellFormed hf ha).1.keeps
    · exact found

end Arena

/-! ### The shapes of trees -/

/-- The shape of a tree whose names belong to the scope `s`, and the scope that is left. -/
def Tree.shapeIn (s : Scope) : Tree → Shape × Scope
  | .name token => (.slot (s.resolve token).1, (s.resolve token).2)
  | .lambda _ parameter body =>
    let inner := body.shapeIn [parameter]
    (.lambda ((s.resolveAll inner.2.tail).1.map Int.ofNat) inner.1, (s.resolveAll inner.2.tail).2)
  | .apply function argument =>
    let first := function.shapeIn s
    let second := argument.shapeIn first.2
    (.apply first.1 second.1, second.2)

namespace Arena

/-- The scope that interning leaves depends on the names of the tree alone. -/
theorem scope_internIn (a : Arena) (s : Scope) (t : Tree) :
    (a.internIn s t).2.1 = (t.shapeIn s).2 := by
  induction t generalizing a s with
  | name token => rfl
  | lambda start parameter body ih =>
    rcases hb : a.internIn [parameter] body with ⟨node, inner, a'⟩
    have hi := ih a [parameter]
    rw [hb] at hi
    rw [internIn_lambda a s start parameter body hb, Tree.shapeIn, ← hi]
  | apply function argument ihf ihx =>
    rcases hf : a.internIn s function with ⟨f, s₁, a₁⟩
    rcases hx : a₁.internIn s₁ argument with ⟨x, s₂, a₂⟩
    have hi := ihf a s
    have hj := ihx a₁ s₁
    rw [hf] at hi
    rw [hx] at hj
    rw [internIn_apply a s function argument hf hx, Tree.shapeIn, ← hi, ← hj]

end Arena

namespace Tree

/-- A tree only adds names to its scope. -/
theorem grows_shapeIn (s : Scope) (t : Tree) : s <+: (t.shapeIn s).2 := by
  rw [← Arena.scope_internIn {} s t]
  exact (Arena.interned_of_internIn (.empty 0) rfl).grows

/-- The scope of a body is its parameter and names that differ from it. -/
theorem scope_shapeIn (parameter : Token) (body : Tree) :
    (body.shapeIn [parameter]).2 = parameter :: (body.shapeIn [parameter]).2.tail ∧
      ∀ t ∈ (body.shapeIn [parameter]).2.tail, t.text ≠ parameter.text := by
  rw [← Arena.scope_internIn {} [parameter] body]
  exact Arena.scope_body (.empty 0) rfl

/-- A tree adds no more names to its scope than it has tokens. -/
theorem length_shapeIn_le (s : Scope) (t : Tree) :
    (t.shapeIn s).2.length ≤ s.length + t.tokens.length := by
  induction t generalizing s with
  | name token => exact Scope.length_resolveAll_le s [token]
  | lambda start parameter body ih =>
    have inner := ih [parameter]
    have outer := s.length_resolveAll_le (body.shapeIn [parameter]).2.tail
    rw [List.length_tail] at outer
    simp only [shapeIn, tokens, List.length_cons, List.length_nil] at inner ⊢
    omega
  | apply function argument ihf ihx =>
    have first := ihf s
    have second := ihx (function.shapeIn s).2
    simp only [shapeIn, tokens, List.length_append]
    omega

/-- All slots that interning the tree may capture belong to the range. Natural slots are enough for
every tree, machine words for every tree of at most as many tokens as there are natural words. -/
def FitsIn (t : Tree) : Key.SlotRange → Prop
  | .natural => True
  | .word => t.tokens.length ≤ wordHalf

theorem FitsIn.has {t : Tree} {range : Key.SlotRange} (h : t.FitsIn range) {i : Nat}
    (hi : i < t.tokens.length) : range.Has i := by
  cases range with
  | natural => exact Int.natCast_nonneg i
  | word =>
    have hl : t.tokens.length ≤ wordHalf := h
    simp only [Key.SlotRange.Has, fitsWord, Bool.and_eq_true, decide_eq_true_eq]
    omega

end Tree

namespace Arena

/-- Interning a tree is a sequence of operations, which leads to a node of the tree's shape. -/
theorem shape_internIn {range : Key.SlotRange} {a : Arena} (h : a.Built range.Has) {s : Scope}
    {t : Tree} (fits : ∀ i : Nat, i < s.length + t.tokens.length → range.Has i) {e : Expr}
    {s' : Scope} {a' : Arena} (ht : a.internIn s t = (e, s', a')) :
    a.Leads range.Has a' ∧ e ∈ a'.graph.nodes ∧ e.shape = (t.shapeIn s).1 := by
  induction t generalizing a s e s' a' with
  | name token =>
    rw [internIn_name] at ht
    obtain ⟨rfl, rfl, rfl⟩ := by simpa only [Prod.mk.injEq] using ht
    have made := (made_slot h.wellFormed ((s.resolve token).1 : Int)).1
    obtain ⟨id, hn⟩ := slot_content h.wellFormed ((s.resolve token).1 : Int)
    refine ⟨.slot .refl _, made.mem, ?_⟩
    rw [hn]
    rfl
  | lambda start parameter body ih =>
    rcases hb : a.internIn [parameter] body with ⟨node, inner, a₁⟩
    rw [internIn_lambda a s start parameter body hb] at ht
    obtain ⟨rfl, rfl, rfl⟩ := by simpa only [Prod.mk.injEq] using ht
    have scope := a.scope_internIn [parameter] body
    rw [hb] at scope
    dsimp only at scope
    have inside := Tree.length_shapeIn_le [parameter] body
    have outside := s.length_resolveAll_le inner.tail
    rw [List.length_tail] at outside
    simp only [Tree.tokens, ← scope, List.length_cons, List.length_nil] at inside fits
    obtain ⟨leads, mem, shape⟩ := ih h (fun i hi ↦ fits i (by simp at hi; omega)) hb
    have captured : ∀ i ∈ (s.resolveAll inner.tail).1.map Int.ofNat, range.Has i := by
      intro i hi
      obtain ⟨slot, hs, rfl⟩ := List.mem_map.mp hi
      have hlt := Scope.lt_of_mem_resolveAll hs
      exact fits slot (by omega)
    have wellFormed := (leads.built h).wellFormed
    obtain ⟨id, reads, size, hn⟩ := lambda_content_in range wellFormed mem captured
    refine ⟨.lambda leads mem captured, (made_lambda wellFormed mem captured).1.mem, ?_⟩
    rw [hn, Expr.shape, shape, Tree.shapeIn, ← scope]
  | apply function argument ihf ihx =>
    rcases hf : a.internIn s function with ⟨f, s₁, a₁⟩
    rcases hx : a₁.internIn s₁ argument with ⟨x, s₂, a₂⟩
    rw [internIn_apply a s function argument hf hx] at ht
    obtain ⟨rfl, rfl, rfl⟩ := by simpa only [Prod.mk.injEq] using ht
    have scope := a.scope_internIn s function
    rw [hf] at scope
    dsimp only at scope
    have inside := Tree.length_shapeIn_le s function
    simp only [Tree.tokens, ← scope, List.length_append] at inside fits
    obtain ⟨leadsF, memF, shapeF⟩ := ihf h (fun i hi ↦ fits i (by omega)) hf
    have built := leadsF.built h
    obtain ⟨leadsX, memX, shapeX⟩ := ihx built (fun i hi ↦ fits i (by omega)) hx
    have mem := (leadsX.keeps built).nodes f memF
    have wellFormed := (leadsX.built built).wellFormed
    obtain ⟨id, reads, size, hn⟩ := apply_content wellFormed mem memX
    refine ⟨.apply (leadsF.trans leadsX) mem memX, (made_apply wellFormed mem memX).1.mem, ?_⟩
    rw [hn, Expr.shape, shapeF, shapeX, scope]
    rfl

/-- Interning a tree whose shape is there finds its node and changes nothing. -/
theorem internIn_of_mem {ok : Int → Prop} {a : Arena} (h : a.Built ok) {s : Scope} {t : Tree}
    {e : Expr} (he : e ∈ a.graph.nodes) (shape : e.shape = (t.shapeIn s).1) :
    a.internIn s t = (e, (t.shapeIn s).2, a) := by
  have found := h.finds he
  have rests := h.wellFormed.rests e he
  induction t generalizing s e with
  | name token =>
    cases e with
    | slot id index =>
      have hs : index = (s.resolve token).1 := Shape.slot.inj shape
      rw [internIn_name, ← hs, slot, show a.graph.slots[index]? = _ from found]
      rfl
    | lambda id captured body reads size => cases shape
    | apply id function argument reads size => cases shape
  | lambda start parameter tree ih =>
    cases e with
    | slot id index => cases shape
    | lambda id captured body reads size =>
      obtain ⟨hc, hb⟩ := Shape.lambda.inj shape
      have inner := ih rests.1 hb (h.finds rests.1) (h.wellFormed.rests body rests.1)
      rw [internIn_lambda a s start parameter tree inner, ← hc, lambda,
        show a.graph.lambdas[(body.id, Key.ofSlots captured)]? = _ from found]
      rfl
    | apply id function argument reads size => cases shape
  | apply functionTree argumentTree ihf ihx =>
    cases e with
    | slot id index => cases shape
    | lambda id captured body reads size => cases shape
    | apply id function argument reads size =>
      obtain ⟨hf, hx⟩ := Shape.apply.inj shape
      obtain ⟨memF, memX, -⟩ := rests
      have first := ihf memF hf (h.finds memF) (h.wellFormed.rests _ memF)
      have second := ihx memX hx (h.finds memX) (h.wellFormed.rests _ memX)
      rw [internIn_apply a s functionTree argumentTree first second, apply,
        show a.graph.applies[(function.id, argument.id)]? = _ from found]
      rfl

end Arena

end BitCalculus
