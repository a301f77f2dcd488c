import BitCalculus.Proofs.Graph.Coherence

/-!
# What nodes record

Every node of a graph carries the slots that it reads and its size. Both are computed once, from
what the parts of the node carry: slots are merged in ascending order, and sizes are added up to a
ceiling. They are exact nevertheless: the slots are those outside the bodies of abstractions, and
the size is the number of nodes of the whole tree below, shared ones counted each time, up to the
ceiling. The sums that are taken on the way are small.
-/

namespace BitCalculus

namespace Expr

/-- Whether a slot stands in an expression outside the bodies of abstractions, as a variable or
among captured slots. -/
def Mentions (i : Int) : Expr → Prop
  | slot _ index => i = index
  | lambda _ captured _ _ _ => i ∈ captured
  | apply _ function argument _ _ => function.Mentions i ∨ argument.Mentions i

/-! ### Ascending slots -/

theorem ascending_mergeReads {xs ys : List Int} (hx : xs.Pairwise (· < ·))
    (hy : ys.Pairwise (· < ·)) : (mergeReads xs ys).Pairwise (· < ·) := by
  fun_induction mergeReads xs ys with
  | case1 ys => exact hy
  | case2 x xs => exact hx
  | case3 x xs y ys lt ih =>
    obtain ⟨first, rest⟩ := List.pairwise_cons.mp hx
    refine List.pairwise_cons.mpr ⟨fun z hz ↦ ?_, ih rest hy⟩
    rcases (mem_mergeReads xs (y :: ys)).mp hz with hz | hz
    · exact first z hz
    · rcases List.mem_cons.mp hz with rfl | hz
      · exact lt
      · exact lt.trans ((List.pairwise_cons.mp hy).1 z hz)
  | case4 x xs y ys _ lt ih =>
    obtain ⟨first, rest⟩ := List.pairwise_cons.mp hy
    refine List.pairwise_cons.mpr ⟨fun z hz ↦ ?_, ih hx rest⟩
    rcases (mem_mergeReads (x :: xs) ys).mp hz with hz | hz
    · rcases List.mem_cons.mp hz with rfl | hz
      · exact lt
      · exact lt.trans ((List.pairwise_cons.mp hx).1 z hz)
    · exact first z hz
  | case5 x xs y ys notLt notGt ih =>
    have same : x = y := by omega
    subst same
    obtain ⟨firstX, restX⟩ := List.pairwise_cons.mp hx
    obtain ⟨firstY, restY⟩ := List.pairwise_cons.mp hy
    refine List.pairwise_cons.mpr ⟨fun z hz ↦ ?_, ih restX restY⟩
    rcases (mem_mergeReads xs ys).mp hz with hz | hz
    · exact firstX z hz
    · exact firstY z hz

theorem ascending_sortReads (slots : List Int) : (sortReads slots).Pairwise (· < ·) := by
  induction slots with
  | nil => exact List.Pairwise.nil
  | cons s slots ih => exact ascending_mergeReads (List.pairwise_singleton _ s) ih

/-! ### Measured nodes -/

/-- A node that records its slots in ascending order, each of them once, and its size up to the
ceiling. -/
structure IsMeasured (e : Expr) : Prop where
  ascending : e.reads.Pairwise (· < ·)
  exact : ∀ i, i ∈ e.reads ↔ e.Mentions i
  size : e.size = min sizeCeiling e.parts.length

theorem measured_slot (id : Nat) (i : Int) : (slot id i).IsMeasured where
  ascending := List.pairwise_singleton _ i
  exact _ := List.mem_singleton
  size := rfl

theorem measured_lambda (id : Nat) (captured : List Int) {body : Expr} (h : body.IsMeasured) :
    (lambda id captured body (sortReads captured) (joinSize body.size 0)).IsMeasured where
  ascending := ascending_sortReads captured
  exact _ := mem_sortReads captured
  size := by
    rw [size, joinSize, h.size, parts, List.length_cons]
    omega

theorem measured_apply (id : Nat) {function argument : Expr} (hf : function.IsMeasured)
    (ha : argument.IsMeasured) :
    (apply id function argument (mergeReads function.reads argument.reads)
      (joinSize function.size argument.size)).IsMeasured where
  ascending := ascending_mergeReads hf.ascending ha.ascending
  exact i := by rw [reads, mem_mergeReads, hf.exact, ha.exact, Mentions]
  size := by
    rw [size, joinSize, hf.size, ha.size, parts, List.length_cons, List.length_append]
    omega

/-- The sum from which the size of a node over two measured parts is taken is a machine word. -/
theorem IsMeasured.fitsWord_sum {m n : Expr} (hm : m.IsMeasured) (hn : n.IsMeasured) :
    fitsWord (m.size + n.size + 1) = true := by
  have ceiling : sizeCeiling = 1073741824 := rfl
  have half : wordHalf = 9223372036854775808 := rfl
  have leM := hm.size
  have leN := hn.size
  simp only [fitsWord, half, Bool.and_eq_true, decide_eq_true_eq]
  omega

end Expr

namespace Arena

variable {a : Arena}

theorem measured_nodes_slot (h : ∀ n ∈ a.graph.nodes, n.IsMeasured) (i : Int) :
    ∀ n ∈ (a.slot i).2.graph.nodes, n.IsMeasured := by
  unfold slot
  split
  · exact h
  · exact Array.forall_mem_push.mpr ⟨Expr.measured_slot _ i, h⟩

theorem measured_nodes_lambda (h : ∀ n ∈ a.graph.nodes, n.IsMeasured) (captured : List Int)
    {body : Expr} (hb : body ∈ a.graph.nodes) :
    ∀ n ∈ (a.lambda captured body).2.graph.nodes, n.IsMeasured := by
  unfold lambda
  dsimp only
  split
  · exact h
  · exact Array.forall_mem_push.mpr ⟨Expr.measured_lambda _ captured (h body hb), h⟩

theorem measured_nodes_apply (h : ∀ n ∈ a.graph.nodes, n.IsMeasured) {function argument : Expr}
    (hf : function ∈ a.graph.nodes) (ha : argument ∈ a.graph.nodes) :
    ∀ n ∈ (a.apply function argument).2.graph.nodes, n.IsMeasured := by
  unfold apply
  dsimp only
  split
  · exact h
  · exact Array.forall_mem_push.mpr
      ⟨Expr.measured_apply _ (h function hf) (h argument ha), h⟩

/-- Whatever operations lead to has measured nodes only. -/
theorem Built.measured {ok : Int → Prop} (h : a.Built ok) :
    ∀ n ∈ a.graph.nodes, n.IsMeasured := by
  induction h with
  | empty lastId => simp
  | later h le ih => exact ih
  | slot h i ih => exact measured_nodes_slot ih i
  | lambda h hb hc ih => exact measured_nodes_lambda ih _ hb
  | apply h hf ha ih => exact measured_nodes_apply ih hf ha

end Arena

end BitCalculus
