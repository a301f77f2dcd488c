import Mathlib
import BitCalculus.Proofs.Graph.Sharing

/-!
# The graph decides renaming

Two trees are equal up to renaming of parameters if their names pair off under the abstractions
around them: the parameters of two abstractions that correspond are a pair, and an inner pair hides
an outer one. This is the case exactly if both trees have the same shape and the same free names in
the same order. A graph has each shape once, so it decides the relation by the number of a node.
-/

namespace BitCalculus

/-- Two names stand for each other under pairs of parameters, the innermost pair first: they belong
to one pair that no inner parameter hides, or they are free and equal. -/
def Paired : List (Bytes × Bytes) → Bytes → Bytes → Prop
  | [], x, y => x = y
  | (p, q) :: pairs, x, y => (x = p ∧ y = q) ∨ (x ≠ p ∧ y ≠ q ∧ Paired pairs x y)

/-- Each name stands for at most one other, in both directions. -/
theorem Paired.eq_iff {pairs : List (Bytes × Bytes)} {x y x' y' : Bytes} (h : Paired pairs x y)
    (h' : Paired pairs x' y') : x = x' ↔ y = y' := by
  induction pairs with
  | nil =>
    have hx : x = y := h
    have hx' : x' = y' := h'
    rw [hx, hx']
  | cons pair pairs ih =>
    rcases h with ⟨rfl, rfl⟩ | ⟨hx, hy, h⟩ <;> rcases h' with ⟨rfl, rfl⟩ | ⟨hx', hy', h'⟩
    · exact iff_of_true rfl rfl
    · exact iff_of_false (Ne.symm hx') (Ne.symm hy')
    · exact iff_of_false hx hy
    · exact ih h h'

namespace Tree

/-- Equality of trees up to renaming of parameters, under pairs of parameters of the abstractions
around them. -/
def AlphaEqUnder (pairs : List (Bytes × Bytes)) : Tree → Tree → Prop
  | .name x, .name y => Paired pairs x.text y.text
  | .lambda _ p body, .lambda _ q body' => AlphaEqUnder ((p.text, q.text) :: pairs) body body'
  | .apply function argument, .apply function' argument' =>
    AlphaEqUnder pairs function function' ∧ AlphaEqUnder pairs argument argument'
  | _, _ => False

/-- Equality of trees up to renaming of parameters. Free names stay as they are. -/
def AlphaEq : Tree → Tree → Prop :=
  AlphaEqUnder []

end Tree

/-! ### Renamed trees have one shape -/

namespace Scope

/-- The names of two scopes stand for each other slot by slot. -/
def PairedUnder (pairs : List (Bytes × Bytes)) (s s' : Scope) : Prop :=
  List.Forall₂ (fun x y ↦ Paired pairs x.text y.text) s s'

variable {pairs : List (Bytes × Bytes)} {s s' : Scope}

private theorem findIdx?_paired (h : s.PairedUnder pairs s') {x y : Token}
    (hxy : Paired pairs x.text y.text) :
    (s.findIdx? fun t ↦ t.text == x.text) = s'.findIdx? fun t ↦ t.text == y.text := by
  induction h with
  | nil => rfl
  | cons head tail ih =>
    rw [List.findIdx?_cons, List.findIdx?_cons, ih]
    simp only [beq_iff_eq, head.eq_iff hxy]

/-- Names that stand for each other are given the same slot. -/
theorem resolve_paired (h : s.PairedUnder pairs s') {x y : Token}
    (hxy : Paired pairs x.text y.text) :
    (s.resolve x).1 = (s'.resolve y).1 ∧ (s.resolve x).2.PairedUnder pairs (s'.resolve y).2 := by
  unfold resolve
  rw [findIdx?_paired h hxy]
  split
  · exact ⟨rfl, h⟩
  · exact ⟨h.length_eq, List.rel_append h (.cons hxy .nil)⟩

/-- Lists of names that stand for each other are given the same slots. -/
theorem resolveAll_paired (h : s.PairedUnder pairs s') {xs ys : Scope}
    (names : xs.PairedUnder pairs ys) :
    (s.resolveAll xs).1 = (s'.resolveAll ys).1 ∧
      (s.resolveAll xs).2.PairedUnder pairs (s'.resolveAll ys).2 := by
  induction names generalizing s s' with
  | nil => exact ⟨rfl, h⟩
  | cons head tail ih =>
    obtain ⟨slot, first⟩ := resolve_paired h head
    obtain ⟨slots, rest⟩ := ih first
    simp only [resolveAll, slot, slots]
    exact ⟨trivial, rest⟩

end Scope

namespace Tree

/-- What a body leaves to the scope around it pairs off without the parameters of the body. -/
private theorem tail_paired {pairs : List (Bytes × Bytes)} {p q : Token} {body body' : Tree}
    (h : (body.shapeIn [p]).2.PairedUnder ((p.text, q.text) :: pairs) (body'.shapeIn [q]).2) :
    Scope.PairedUnder pairs (body.shapeIn [p]).2.tail (body'.shapeIn [q]).2.tail := by
  obtain ⟨hp, apart⟩ := scope_shapeIn p body
  obtain ⟨hq, -⟩ := scope_shapeIn q body'
  rw [hp, hq] at h
  have tail := (List.forall₂_cons.mp h).2
  refine (List.forall₂_and_left (p := fun t : Token ↦ t.text ≠ p.text) _ _).mpr
    ⟨apart, tail⟩ |>.imp ?_
  rintro x y ⟨hx, ⟨he, -⟩ | ⟨-, -, hxy⟩⟩
  · exact absurd he hx
  · exact hxy

/-- Trees that are equal up to renaming have the same shape, in scopes whose names stand for each
other. -/
theorem shapeIn_of_alphaEq {pairs : List (Bytes × Bytes)} {s s' : Scope} {t t' : Tree}
    (h : AlphaEqUnder pairs t t') (scopes : s.PairedUnder pairs s') :
    (t.shapeIn s).1 = (t'.shapeIn s').1 ∧
      (t.shapeIn s).2.PairedUnder pairs (t'.shapeIn s').2 := by
  fun_induction AlphaEqUnder pairs t t' generalizing s s' with
  | case1 pairs x y =>
    obtain ⟨slot, left⟩ := Scope.resolve_paired scopes h
    exact ⟨congrArg (fun i : Nat ↦ Shape.slot i) slot, left⟩
  | case2 pairs _ p body _ q body' ih =>
    obtain ⟨shape, inner⟩ := ih h (List.forall₂_cons.mpr ⟨.inl ⟨rfl, rfl⟩, .nil⟩)
    obtain ⟨captured, left⟩ := Scope.resolveAll_paired scopes (tail_paired inner)
    simp only [shapeIn, shape, captured]
    exact ⟨trivial, left⟩
  | case3 pairs function argument function' argument' ihf ihx =>
    obtain ⟨first, middle⟩ := ihf h.1 scopes
    obtain ⟨second, left⟩ := ihx h.2 middle
    simp only [shapeIn, first, second]
    exact ⟨trivial, left⟩
  | case4 => exact h.elim

/-! ### Trees of one shape are renamed -/

/-- Trees of the same shape are equal up to renaming, if the names that they leave in the same slot
stand for each other. -/
theorem alphaEq_of_shapeIn {pairs : List (Bytes × Bytes)} {s s' : Scope} {t t' : Tree}
    (shape : (t.shapeIn s).1 = (t'.shapeIn s').1)
    (names : ∀ i x y, (t.shapeIn s).2.nameAt? i = some x → (t'.shapeIn s').2.nameAt? i = some y →
      Paired pairs x y) : AlphaEqUnder pairs t t' := by
  fun_induction AlphaEqUnder pairs t t' generalizing s s' with
  | case1 pairs x y =>
    have slot : (s.resolve x).1 = (s'.resolve y).1 := Int.ofNat.inj (Shape.slot.inj shape)
    refine names (s.resolve x).1 x.text y.text (Scope.nameAt?_resolve s x) ?_
    rw [slot]
    exact Scope.nameAt?_resolve s' y
  | case2 pairs _ p body _ q body' ih =>
    obtain ⟨captured, inner⟩ := Shape.lambda.inj shape
    have captured := List.map_injective_iff.mpr (fun _ _ ↦ Int.ofNat.inj) captured
    obtain ⟨hp, apartP⟩ := scope_shapeIn p body
    obtain ⟨hq, apartQ⟩ := scope_shapeIn q body'
    refine ih inner fun i x y hx hy ↦ ?_
    rw [hp] at hx
    rw [hq] at hy
    cases i with
    | zero => exact .inl ⟨(Option.some.inj hx).symm, (Option.some.inj hy).symm⟩
    | succ i =>
      obtain ⟨tokenX, getX, rfl⟩ := Option.map_eq_some_iff.mp hx
      obtain ⟨tokenY, getY, rfl⟩ := Option.map_eq_some_iff.mp hy
      rw [List.getElem?_cons_succ] at getX getY
      -- Both names stand in the captured slot at position `i`.
      obtain ⟨slot, slotX, nameX⟩ := s.exists_slot_resolveAll getX
      obtain ⟨slot', slotY, nameY⟩ := s'.exists_slot_resolveAll getY
      rw [captured, slotY] at slotX
      obtain rfl := Option.some.inj slotX
      exact .inr ⟨apartP _ (List.mem_of_getElem? getX), apartQ _ (List.mem_of_getElem? getY),
        names slot' _ _ nameX nameY⟩
  | case3 pairs function argument function' argument' ihf ihx =>
    obtain ⟨first, second⟩ := Shape.apply.inj shape
    refine ⟨ihf first fun i x y hx hy ↦ ?_, ihx second names⟩
    exact names i x y (Scope.nameAt?_mono (argument.grows_shapeIn _) hx)
      (Scope.nameAt?_mono (argument'.grows_shapeIn _) hy)
  | case4 t pairs t' hn hl ha =>
    cases t <;> cases t'
    case name.name x y => exact hn x y rfl rfl
    case lambda.lambda => exact hl _ _ _ _ _ _ rfl rfl
    case apply.apply => exact ha _ _ _ _ rfl rfl
    all_goals cases shape

/-- Trees are equal up to renaming exactly if they have the same shape and the same free names in
the same order. -/
theorem alphaEq_iff {t t' : Tree} :
    t.AlphaEq t' ↔ (t.shapeIn []).1 = (t'.shapeIn []).1 ∧
      (t.shapeIn []).2.map Token.text = (t'.shapeIn []).2.map Token.text := by
  constructor
  · intro h
    obtain ⟨shape, left⟩ := shapeIn_of_alphaEq h (.nil : Scope.PairedUnder [] [] [])
    refine ⟨shape, ?_⟩
    rw [← List.forall₂_eq_eq_eq, List.forall₂_map_left_iff, List.forall₂_map_right_iff]
    exact left
  · rintro ⟨shape, free⟩
    refine alphaEq_of_shapeIn shape fun i x y hx hy ↦ ?_
    rw [Scope.nameAt?, ← List.getElem?_map] at hx hy
    rw [free, hy] at hx
    exact (Option.some.inj hx).symm

theorem alphaEq_comm {t t' : Tree} : t.AlphaEq t' ↔ t'.AlphaEq t := by
  rw [alphaEq_iff, alphaEq_iff, eq_comm, @eq_comm _ ((t.shapeIn []).2.map Token.text)]

instance (t t' : Tree) : Decidable (t.AlphaEq t') :=
  decidable_of_iff _ alphaEq_iff.symm

end Tree

/-! ### Numbers decide renaming -/

namespace Arena

/-- The node of a tree is a node of its graph and has the tree's shape, and operations led to it. -/
private theorem shape_intern {range : Key.SlotRange} {a a' : Arena} (built : a.Built range.Has)
    {t : Tree} (fits : t.FitsIn range) {e : Expr} {free : Scope} (h : a.intern t = (e, free, a')) :
    a.Leads range.Has a' ∧ e ∈ a'.graph.nodes ∧ e.shape = (t.shapeIn []).1 :=
  shape_internIn built (fun i hi ↦ fits.has (by simpa using hi)) h

/-- The free names that interning lists follow from the tree. -/
private theorem free_intern {a a' : Arena} {t : Tree} {e : Expr} {free : Scope}
    (h : a.intern t = (e, free, a')) : free = (t.shapeIn []).2 := by
  rw [← a.scope_internIn [] t, show a.internIn [] t = _ from h]

end Arena

/-- For two trees that are interned in one graph, whatever operations come before and in between:
they have the same node and the same free names exactly if they are equal up to renaming, in
whichever order they are compared; the second one then changes nothing, and neither does the first
one when it is interned again. -/
theorem interning_decides_alpha {range : Key.SlotRange} {a a₁ b b₂ : Arena}
    (built : a.Built range.Has) {t₁ t₂ : Tree} (fits₁ : t₁.FitsIn range) (fits₂ : t₂.FitsIn range)
    {e₁ e₂ : Expr} {free₁ free₂ : Scope} (first : a.intern t₁ = (e₁, free₁, a₁))
    (between : a₁.Leads range.Has b) (second : b.intern t₂ = (e₂, free₂, b₂)) :
    (e₁.id = e₂.id ∧ free₁.map Token.text = free₂.map Token.text ↔ t₁.AlphaEq t₂) ∧
      (e₁.id = e₂.id ∧ free₁.map Token.text = free₂.map Token.text ↔ t₂.AlphaEq t₁) ∧
      (t₁.AlphaEq t₂ → b₂ = b) ∧ b.intern t₁ = (e₁, free₁, b) := by
  obtain ⟨leads₁, mem₁, shape₁⟩ := Arena.shape_intern built fits₁ first
  have built₁ := leads₁.built built
  have builtB := between.built built₁
  obtain ⟨leads₂, mem₂, shape₂⟩ := Arena.shape_intern builtB fits₂ second
  have memB := (between.keeps built₁).nodes e₁ mem₁
  have found {t : Tree} (shape : e₁.shape = (t.shapeIn []).1) :
      b.intern t = (e₁, (t.shapeIn []).2, b) := Arena.internIn_of_mem builtB memB shape
  have decides : e₁.id = e₂.id ∧ free₁.map Token.text = free₂.map Token.text ↔ t₁.AlphaEq t₂ := by
    rw [Tree.alphaEq_iff, ← shape₁, ← shape₂, Arena.free_intern first, Arena.free_intern second]
    refine and_congr_left fun _ ↦ ⟨fun same ↦ ?_, fun same ↦ ?_⟩
    · rw [(leads₂.built builtB).wellFormed.id_inj e₁ ((leads₂.keeps builtB).nodes e₁ memB) e₂ mem₂
        same]
    · have again := found (same.trans shape₂)
      rw [second] at again
      rw [(Prod.mk.inj again).1]
  refine ⟨decides, decides.trans Tree.alphaEq_comm, fun alpha ↦ ?_, ?_⟩
  · have again := found (shape₁.trans (Tree.alphaEq_iff.mp alpha).1)
    rw [second] at again
    exact (Prod.mk.inj (Prod.mk.inj again).2).2
  · rw [found shape₁, ← Arena.free_intern first]

/-- A parameter is renamed under another one that hides it, after an abstraction with a negative
capture was made by hand; the name that is free in the tree is no new name for the parameter. -/
theorem interning_decides_alpha_hidden :
    ∃ t₁ t₂ t₃ e₁ e₂ e₃ free₁ free₂ free₃ a₁ b₂ b₃,
      parseText (lit "t") (lit "\\x (\\x x y) x") = .ok t₁ ∧
      parseText (lit "t") (lit "\\z (\\x x y) z") = .ok t₂ ∧
      parseText (lit "t") (lit "\\y (\\x x y) y") = .ok t₃ ∧
      Arena.intern {} t₁ = (e₁, free₁, a₁) ∧
      ((a₁.slot (-1)).2.lambda [-1] (a₁.slot (-1)).1).2.intern t₂ = (e₂, free₂, b₂) ∧
      b₂.intern t₃ = (e₃, free₃, b₃) ∧
      e₁.id = e₂.id ∧ free₁.map Token.text = free₂.map Token.text ∧
      b₂ = ((a₁.slot (-1)).2.lambda [-1] (a₁.slot (-1)).1).2 ∧
      ¬ (e₂.id = e₃.id ∧ free₂.map Token.text = free₃.map Token.text) := by
  obtain ⟨t₁, t₂, t₃, parsed₁, parsed₂, parsed₃, fits₁, fits₂, fits₃, renamed, different⟩ :
      ∃ t₁ t₂ t₃ : Tree, parseText (lit "t") (lit "\\x (\\x x y) x") = .ok t₁ ∧
        parseText (lit "t") (lit "\\z (\\x x y) z") = .ok t₂ ∧
        parseText (lit "t") (lit "\\y (\\x x y) y") = .ok t₃ ∧
        t₁.FitsIn .word ∧ t₂.FitsIn .word ∧ t₃.FitsIn .word ∧ t₁.AlphaEq t₂ ∧ ¬ t₂.AlphaEq t₃ :=
    ⟨_, _, _, by cbv, by cbv, by cbv, by simp [Tree.FitsIn, Tree.tokens, wordHalf],
      by simp [Tree.FitsIn, Tree.tokens, wordHalf], by simp [Tree.FitsIn, Tree.tokens, wordHalf],
      by decide +kernel, by decide +kernel⟩
  rcases first : Arena.intern {} t₁ with ⟨e₁, free₁, a₁⟩
  rcases second : ((a₁.slot (-1)).2.lambda [-1] (a₁.slot (-1)).1).2.intern t₂ with
    ⟨e₂, free₂, b₂⟩
  rcases third : b₂.intern t₃ with ⟨e₃, free₃, b₃⟩
  have built₁ := (Arena.shape_intern (.empty 0) fits₁ first).1.built (.empty 0)
  have between : a₁.Leads Key.SlotRange.word.Has
      ((a₁.slot (-1)).2.lambda [-1] (a₁.slot (-1)).1).2 :=
    .lambda (.slot .refl (-1)) (Arena.made_slot built₁.wellFormed (-1)).1.mem
      (by simp [Key.SlotRange.Has, fitsWord, wordHalf])
  obtain ⟨same, -, unchanged, -⟩ :=
    interning_decides_alpha (.empty 0) fits₁ fits₂ first between second
  obtain ⟨other, -⟩ :=
    interning_decides_alpha (between.built built₁) fits₂ fits₃ second .refl third
  obtain ⟨sameId, sameFree⟩ := same.mpr renamed
  exact ⟨t₁, t₂, t₃, e₁, e₂, e₃, free₁, free₂, free₃, a₁, b₂, b₃, parsed₁, parsed₂, parsed₃, first,
    second, third, sameId, sameFree, unchanged renamed, fun h ↦ different (other.mp h)⟩

end BitCalculus
