import Mathlib
import BitCalculus.Proofs.Graph.Sharing

/-!
# The order of creation

An operation either finds its node or makes one, which gets the next number and stands behind all
other nodes. So node numbers ascend, the children of a node stand before it, and nodes that are
there stay where they are. Bisection finds nodes by number because numbers ascend.
-/

namespace BitCalculus

namespace Arena

/-! ### Many operations -/

/-- What operations do to an arena: nodes stay where they are, and new ones have numbers after the
last one that was given out. -/
structure Continues (a b : Arena) : Prop where
  lastId : a.lastId ≤ b.lastId
  nodes : a.graph.nodes.toList <+: b.graph.nodes.toList
  later : ∀ n ∈ b.graph.nodes, n ∈ a.graph.nodes ∨ a.lastId < n.id

theorem Continues.refl (a : Arena) : a.Continues a :=
  ⟨Nat.le_refl _, List.prefix_refl _, fun _ ↦ .inl⟩

theorem Continues.trans {a b c : Arena} (h : a.Continues b) (h' : b.Continues c) :
    a.Continues c := by
  refine ⟨Nat.le_trans h.lastId h'.lastId, h.nodes.trans h'.nodes, fun n hn ↦ ?_⟩
  rcases h'.later n hn with hn | hn
  · exact h.later n hn
  · exact .inr (Nat.lt_of_le_of_lt h.lastId hn)

theorem Makes.continues {a : Arena} {r : Expr × Arena} (h : a.Makes r) : a.Continues r.2 := by
  rcases h with he | ⟨hn, hl, hid, -⟩
  · exact he ▸ .refl a
  · refine ⟨by omega, by simp [hn], fun m hm ↦ ?_⟩
    rw [hn, Array.mem_push] at hm
    rcases hm with hm | rfl
    · exact .inl hm
    · exact .inr (by omega)

theorem Leads.continues {ok : Int → Prop} {a b : Arena} (h : a.Leads ok b) : a.Continues b := by
  induction h with
  | refl => exact .refl a
  | later h le ih => exact ih.trans ⟨le, List.prefix_refl _, fun _ ↦ .inl⟩
  | slot h i ih => exact ih.trans (makes_slot _ i).continues
  | lambda h hb hc ih => exact ih.trans (makes_lambda _ _ hb).continues
  | apply h hf hx ih => exact ih.trans (makes_apply _ hf hx).continues

/-- The nodes of an arena stand in the order of their numbers, each behind its children. -/
structure Ordered (a : Arena) : Prop where
  ascending : a.graph.nodes.toList.Pairwise fun m n ↦ m.id < n.id
  id_le : ∀ n ∈ a.graph.nodes, n.id ≤ a.lastId
  children : ∀ (i : Nat) (n : Expr), a.graph.nodes[i]? = some n →
    ∀ child ∈ n.children, ∃ j < i, a.graph.nodes[j]? = some child

/-- An operation keeps the order. -/
theorem Ordered.makes {a : Arena} {r : Expr × Arena} (h : a.Ordered) (made : a.Makes r) :
    r.2.Ordered := by
  rcases made with he | ⟨hn, hl, hid, hc⟩
  · exact he ▸ h
  constructor
  · rw [hn, Array.toList_push, List.pairwise_append]
    refine ⟨h.ascending, List.pairwise_singleton _ _, fun m hm m' hm' ↦ ?_⟩
    have := h.id_le m (Array.mem_toList_iff.mp hm)
    rw [List.mem_singleton.mp hm']
    omega
  · intro m hm
    rw [hn, Array.mem_push] at hm
    rcases hm with hm | rfl
    · have := h.id_le m hm
      omega
    · omega
  · intro i m hm child hchild
    rw [hn, Array.getElem?_push] at hm
    -- The new node is the last one, so whatever is there comes before it.
    have old {j : Nat} {m' : Expr} (hj : a.graph.nodes[j]? = some m') :
        r.2.graph.nodes[j]? = some m' := by
      rw [hn, Array.getElem?_push_lt (Array.getElem?_eq_some_iff.mp hj).1]
      exact congrArg some (Array.getElem?_eq_some_iff.mp hj).2
    split at hm
    · next hi =>
      cases hm
      obtain ⟨j, hlt, hj⟩ := Array.mem_iff_getElem.mp (hc child hchild)
      exact ⟨j, by omega, old (Array.getElem?_eq_some_iff.mpr ⟨hlt, hj⟩)⟩
    · obtain ⟨j, hlt, hj⟩ := h.children i m hm child hchild
      exact ⟨j, hlt, old hj⟩

/-- Whatever operations lead to is ordered. -/
theorem Built.ordered {ok : Int → Prop} {a : Arena} (h : a.Built ok) : a.Ordered := by
  induction h with
  | empty lastId => exact ⟨by simp, by simp, by simp⟩
  | later h le ih => exact ⟨ih.ascending, fun n hn ↦ Nat.le_trans (ih.id_le n hn) le, ih.children⟩
  | slot h i ih => exact ih.makes (makes_slot _ i)
  | lambda h hb hc ih => exact ih.makes (makes_lambda _ _ hb)
  | apply h hf hx ih => exact ih.makes (makes_apply _ hf hx)

end Arena

/-! ### Bisection -/

namespace Graph

/-- Numbers below `low` are too small and numbers from `high` on are not. -/
structure Encloses (g : Graph) (id low high : Nat) : Prop where
  below : ∀ i n, g.nodes[i]? = some n → i < low → n.id < id
  above : ∀ i n, g.nodes[i]? = some n → high ≤ i → id ≤ n.id

variable {g : Graph}

theorem id_lt_of_lt (ascending : g.nodes.toList.Pairwise fun m n ↦ m.id < n.id) {i j : Nat}
    {m n : Expr} (hm : g.nodes[i]? = some m) (hn : g.nodes[j]? = some n) (lt : i < j) :
    m.id < n.id := by
  rw [List.pairwise_iff_getElem] at ascending
  obtain ⟨hi, rfl⟩ := Array.getElem?_eq_some_iff.mp hm
  obtain ⟨hj, rfl⟩ := Array.getElem?_eq_some_iff.mp hn
  exact ascending i j (by simpa using hi) (by simpa using hj) lt

/-- Bisection ends between the numbers that are too small and those that are not. -/
theorem encloses_searchFrom (ascending : g.nodes.toList.Pairwise fun m n ↦ m.id < n.id)
    {id low high : Nat} (h : g.Encloses id low high) (le : low ≤ high)
    (inside : high ≤ g.nodes.size) :
    g.Encloses id (g.searchFrom id low high) (g.searchFrom id low high) := by
  fun_induction searchFrom g id low high with
  | case1 low high hlt middle hm =>
    have : middle < g.nodes.size := by omega
    simp [this] at hm
  | case2 low high hlt middle node hm hid ih =>
    refine ih ⟨fun i n hn hi ↦ ?_, h.above⟩ (by omega) inside
    by_cases he : i = middle
    · rw [he, hm] at hn
      cases hn
      exact hid
    · exact Nat.lt_trans (id_lt_of_lt ascending hn hm (by omega)) hid
  | case3 low high hlt middle node hm hid ih =>
    refine ih ⟨h.below, fun i n hn hi ↦ ?_⟩ (by omega) (by omega)
    by_cases he : i = middle
    · rw [he, hm] at hn
      cases hn
      omega
    · have := id_lt_of_lt ascending hm hn (by omega)
      omega
  | case4 low high hlt =>
    have : low = high := by omega
    exact this ▸ h

/-- Where numbers ascend, bisection finds exactly the nodes that are there. -/
theorem find?_eq_some_iff (ascending : g.nodes.toList.Pairwise fun m n ↦ m.id < n.id) {id : Nat}
    {n : Expr} : g.find? id = some n ↔ n ∈ g.nodes ∧ n.id = id := by
  have found : g.Encloses id (g.searchFrom id 0 g.nodes.size) (g.searchFrom id 0 g.nodes.size) := by
    refine encloses_searchFrom ascending ⟨by simp, fun i m hm hi ↦ ?_⟩ (by omega) (by omega)
    have := (Array.getElem?_eq_some_iff.mp hm).1
    omega
  unfold find?
  constructor
  · intro h
    split at h
    · next m hm =>
      split at h
      · next hid =>
        cases h
        exact ⟨Array.mem_of_getElem? hm, hid⟩
      · cases h
    · cases h
  · rintro ⟨hn, rfl⟩
    obtain ⟨i, hi, he⟩ := Array.mem_iff_getElem.mp hn
    have hg : g.nodes[i]? = some n := Array.getElem?_eq_some_iff.mpr ⟨hi, he⟩
    -- The place of `n` is neither before nor behind the place where bisection ends.
    have notBefore : ¬ i < g.searchFrom n.id 0 g.nodes.size := fun hlt ↦
      Nat.lt_irrefl _ (found.below i n hg hlt)
    have notBehind : ¬ g.searchFrom n.id 0 g.nodes.size < i := by
      intro hlt
      have hs : g.searchFrom n.id 0 g.nodes.size < g.nodes.size := by omega
      have hm := Array.getElem?_eq_getElem hs
      have := id_lt_of_lt ascending hm hg hlt
      have := found.above _ _ hm (Nat.le_refl _)
      omega
    have here : g.searchFrom n.id 0 g.nodes.size = i := by omega
    simp [here, hg]

end Graph

end BitCalculus
