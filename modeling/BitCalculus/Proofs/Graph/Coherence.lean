import Mathlib
import BitCalculus.Proofs.Graph.Order

/-!
# Coherent graphs

Several graphs are worked on in turn and draw their node numbers from one counter. Whatever
operations are carried out on them, in each graph the numbers ascend in the order of creation,
children stand before their parents, the three tables list exactly the nodes, no shape is there
twice and bisection finds each node; no number is in two graphs, and nodes stay where they are. A
compiled program has no node besides those that its root is made of.
-/

namespace BitCalculus

/-! ### Shapes and parts -/

/-- The shapes that a shape is made of, itself included. -/
def Shape.parts : Shape → List Shape
  | slot index => [slot index]
  | lambda captured body => lambda captured body :: body.parts
  | apply function argument => apply function argument :: (function.parts ++ argument.parts)

theorem Expr.parts_shape (e : Expr) : e.shape.parts = e.parts.map Expr.shape := by
  induction e with
  | slot id index => rfl
  | lambda id captured body reads size ih => simp [Expr.shape, Shape.parts, Expr.parts, ih]
  | apply id function argument reads size ihf iha =>
    simp [Expr.shape, Shape.parts, Expr.parts, ihf, iha]

/-- All that a node is made of is in its graph. -/
theorem Lawful.mem_of_mem_parts {ok : Int → Prop} {nodes : Array Expr} {lastId : Nat}
    (h : Lawful ok nodes lastId) {e n : Expr} (he : e ∈ nodes) (hn : n ∈ e.parts) : n ∈ nodes := by
  induction e with
  | slot id index => exact List.mem_singleton.mp hn ▸ he
  | lambda id captured body reads size ih =>
    rcases List.mem_cons.mp hn with rfl | hn
    · exact he
    · exact ih (h.rests _ he).1 hn
  | apply id function argument reads size ihf iha =>
    rcases List.mem_cons.mp hn with rfl | hn
    · exact he
    · rcases List.mem_append.mp hn with hn | hn
      · exact ihf (h.rests _ he).1 hn
      · exact iha (h.rests _ he).2.1 hn

/-- A graph that was built by operations has no two nodes of one shape. -/
theorem Arena.Built.shape_inj {ok : Int → Prop} {a : Arena} (h : a.Built ok) {m n : Expr}
    (hm : m ∈ a.graph.nodes) (hn : n ∈ a.graph.nodes) (shape : m.shape = n.shape) : m = n := by
  have foundM := h.finds hm
  have foundN := h.finds hn
  have restsM := h.wellFormed.rests m hm
  have restsN := h.wellFormed.rests n hn
  induction m generalizing n with
  | slot id index =>
    cases n with
    | slot id' index' =>
      cases Shape.slot.inj shape
      exact Option.some.inj (foundM.symm.trans foundN)
    | lambda => cases shape
    | apply => cases shape
  | lambda id captured body reads size ih =>
    cases n with
    | slot => cases shape
    | lambda id' captured' body' reads' size' =>
      obtain ⟨rfl, inner⟩ := Shape.lambda.inj shape
      cases ih restsM.1 restsN.1 inner (h.finds restsM.1) (h.finds restsN.1)
        (h.wellFormed.rests _ restsM.1) (h.wellFormed.rests _ restsN.1)
      exact Option.some.inj (foundM.symm.trans foundN)
    | apply => cases shape
  | apply id function argument reads size ihf iha =>
    cases n with
    | slot => cases shape
    | lambda => cases shape
    | apply id' function' argument' reads' size' =>
      obtain ⟨first, second⟩ := Shape.apply.inj shape
      cases ihf restsM.1 restsN.1 first (h.finds restsM.1) (h.finds restsN.1)
        (h.wellFormed.rests _ restsM.1) (h.wellFormed.rests _ restsN.1)
      cases iha restsM.2.1 restsN.2.1 second (h.finds restsM.2.1) (h.finds restsN.2.1)
        (h.wellFormed.rests _ restsM.2.1) (h.wellFormed.rests _ restsN.2.1)
      exact Option.some.inj (foundM.symm.trans foundN)

/-! ### Coherence -/

/-- What a graph promises about its nodes, its tables and its bisection. -/
structure Graph.Coherent (g : Graph) : Prop where
  ascending : g.nodes.toList.Pairwise fun m n ↦ m.id < n.id
  children : ∀ (i : Nat) (n : Expr), g.nodes[i]? = some n →
    ∀ child ∈ n.children, ∃ j < i, g.nodes[j]? = some child
  slots : ∀ (i : Int) (n : Expr), g.slots[i]? = some n ↔ n ∈ g.nodes ∧ ∃ id, n = .slot id i
  lambdas : ∀ (key : Nat × Bytes) (n : Expr), g.lambdas[key]? = some n ↔
    n ∈ g.nodes ∧ ∃ id captured body reads size, n = .lambda id captured body reads size ∧
      key = (body.id, Key.ofSlots captured)
  applies : ∀ (key : Nat × Nat) (n : Expr), g.applies[key]? = some n ↔
    n ∈ g.nodes ∧ ∃ id function argument reads size,
      n = .apply id function argument reads size ∧ key = (function.id, argument.id)
  shape_inj : ∀ m ∈ g.nodes, ∀ n ∈ g.nodes, m.shape = n.shape → m = n
  find : ∀ (id : Nat) (n : Expr), g.find? id = some n ↔ n ∈ g.nodes ∧ n.id = id

/-- Operations lead to coherent graphs only. -/
theorem Arena.Built.coherent {ok : Int → Prop} {a : Arena} (h : a.Built ok) :
    a.graph.Coherent where
  ascending := h.ordered.ascending
  children := h.ordered.children
  slots i n := by
    refine ⟨h.wellFormed.slots i n, ?_⟩
    rintro ⟨hn, id, rfl⟩
    exact h.finds hn
  lambdas key n := by
    refine ⟨h.wellFormed.lambdas key n, ?_⟩
    rintro ⟨hn, id, captured, body, reads, size, rfl, rfl⟩
    exact h.finds hn
  applies key n := by
    refine ⟨h.wellFormed.applies key n, ?_⟩
    rintro ⟨hn, id, function, argument, reads, size, rfl, rfl⟩
    exact h.finds hn
  shape_inj m hm n hn := h.shape_inj hm hn
  find id n := Graph.find?_eq_some_iff h.ordered.ascending

/-! ### Graphs that share a counter -/

/-- What can be asked of a graph. -/
inductive Operation where
  | slot (index : Int)
  | lambda (captured : List Int) (body : Expr)
  | apply (function argument : Expr)
  | intern (tree : Tree)

/-- The nodes that are named in an operation are nodes of the graph. -/
def Operation.Fits (g : Graph) : Operation → Prop
  | slot _ => True
  | lambda _ body => body ∈ g.nodes
  | apply function argument => function ∈ g.nodes ∧ argument ∈ g.nodes
  | intern _ => True

/-- Carries out an operation. -/
def Arena.perform (a : Arena) : Operation → Expr × Arena
  | .slot index => a.slot index
  | .lambda captured body => a.lambda captured body
  | .apply function argument => a.apply function argument
  | .intern tree => ((a.intern tree).1, (a.intern tree).2.2)

/-- Several graphs and the last node number that was given out to one of them. -/
structure Graphs (ι : Type) where
  graph : ι → Graph := fun _ ↦ {}
  lastId : Nat := 0

namespace Graphs

variable {ι : Type}

/-- One of the graphs together with the shared counter. -/
def arena (g : Graphs ι) (i : ι) : Arena :=
  ⟨g.graph i, g.lastId⟩

/-- The graphs after work on one of them. -/
def put [DecidableEq ι] (g : Graphs ι) (i : ι) (a : Arena) : Graphs ι :=
  ⟨Function.update g.graph i a.graph, a.lastId⟩

/-- Operations on the graphs, in whatever order, lead from one state to another. -/
inductive Leads [DecidableEq ι] (g : Graphs ι) : Graphs ι → Prop
  | refl : Leads g g
  | step {g' : Graphs ι} (h : Leads g g') (i : ι) (op : Operation) (fits : op.Fits (g'.graph i)) :
      Leads g (g'.put i ((g'.arena i).perform op).2)

end Graphs

namespace Arena

/-- Interning a tree is a sequence of operations, whatever captures the arena was built with. -/
theorem leads_internIn {ok : Int → Prop} (natural : ∀ n : Nat, ok n) {a : Arena} (h : a.Built ok)
    {s : Scope} {t : Tree} {e : Expr} {s' : Scope} {a' : Arena}
    (ht : a.internIn s t = (e, s', a')) : a.Leads ok a' ∧ e ∈ a'.graph.nodes := by
  induction t generalizing a s e s' a' with
  | name token =>
    rw [internIn_name] at ht
    obtain ⟨rfl, rfl, rfl⟩ := by simpa only [Prod.mk.injEq] using ht
    exact ⟨.slot .refl _, (made_slot h.wellFormed _).1.mem⟩
  | lambda start parameter body ih =>
    rcases hb : a.internIn [parameter] body with ⟨node, inner, a₁⟩
    rw [internIn_lambda a s start parameter body hb] at ht
    obtain ⟨rfl, rfl, rfl⟩ := by simpa only [Prod.mk.injEq] using ht
    obtain ⟨leads, mem⟩ := ih h hb
    have captured : ∀ i ∈ (s.resolveAll inner.tail).1.map Int.ofNat, ok i := by
      intro i hi
      obtain ⟨n, -, rfl⟩ := List.mem_map.mp hi
      exact natural n
    exact ⟨.lambda leads mem captured,
      (made_lambda (leads.built h).wellFormed mem captured).1.mem⟩
  | apply function argument ihf ihx =>
    rcases hf : a.internIn s function with ⟨f, s₁, a₁⟩
    rcases hx : a₁.internIn s₁ argument with ⟨x, s₂, a₂⟩
    rw [internIn_apply a s function argument hf hx] at ht
    obtain ⟨rfl, rfl, rfl⟩ := by simpa only [Prod.mk.injEq] using ht
    obtain ⟨leadsF, memF⟩ := ihf h hf
    obtain ⟨leadsX, memX⟩ := ihx (leadsF.built h) hx
    have mem := (leadsX.keeps (leadsF.built h)).nodes f memF
    exact ⟨.apply (leadsF.trans leadsX) mem memX,
      (made_apply (leadsX.built (leadsF.built h)).wellFormed mem memX).1.mem⟩

/-- Every operation leads on and gives a node of the graph. -/
theorem leads_perform {a : Arena} (h : a.Built fun _ ↦ True) {op : Operation}
    (fits : op.Fits a.graph) :
    a.Leads (fun _ ↦ True) (a.perform op).2 ∧ (a.perform op).1 ∈ (a.perform op).2.graph.nodes := by
  cases op with
  | slot index => exact ⟨.slot .refl index, (made_slot h.wellFormed index).1.mem⟩
  | lambda captured body =>
    have any : ∀ i ∈ captured, True := fun _ _ ↦ trivial
    exact ⟨.lambda .refl fits any, (made_lambda h.wellFormed fits any).1.mem⟩
  | apply function argument =>
    exact ⟨.apply .refl fits.1 fits.2, (made_apply h.wellFormed fits.1 fits.2).1.mem⟩
  | intern tree => exact leads_internIn (fun _ ↦ trivial) h rfl

end Arena

namespace Graphs

variable {ι : Type}

/-- Each graph was built by operations, and no number is in two graphs. -/
structure Separate (g : Graphs ι) : Prop where
  built : ∀ i, (g.arena i).Built fun _ ↦ True
  apart : ∀ i j, i ≠ j → ∀ m ∈ (g.graph i).nodes, ∀ n ∈ (g.graph j).nodes, m.id ≠ n.id

theorem separate_empty (lastId : Nat) : ({ lastId } : Graphs ι).Separate :=
  ⟨fun _ ↦ .empty lastId, by simp⟩

variable [DecidableEq ι]

/-- Work on one graph keeps the graphs separate. -/
theorem Separate.put {g : Graphs ι} (h : g.Separate) {i : ι} {a : Arena}
    (leads : (g.arena i).Leads (fun _ ↦ True) a) : (g.put i a).Separate := by
  have continues := leads.continues
  -- A node of another graph has an old number, a node of this one an old or a later one.
  have apart : ∀ j ≠ i, ∀ m ∈ a.graph.nodes, ∀ n ∈ (g.graph j).nodes, m.id ≠ n.id := by
    intro j hj m hm n hn
    rcases continues.later m hm with hm | hm
    · exact h.apart i j (Ne.symm hj) m hm n hn
    · have hle : n.id ≤ g.lastId := (h.built j).ordered.id_le n hn
      have hlt : g.lastId < m.id := hm
      omega
  constructor
  · intro j
    by_cases hj : j = i
    · subst hj
      have he : (g.put j a).arena j = a := by simp [arena, Graphs.put]
      rw [he]
      exact leads.built (h.built j)
    · have he : (g.put i a).arena j = { g.arena j with lastId := a.lastId } := by
        simp [arena, Graphs.put, hj]
      rw [he]
      exact .later (h.built j) continues.lastId
  · intro j k hjk m hm n hn
    by_cases hj : j = i
    · subst hj
      simp only [Graphs.put, Function.update_self, Function.update_of_ne (Ne.symm hjk)] at hm hn
      exact apart k (Ne.symm hjk) m hm n hn
    · by_cases hk : k = i
      · subst hk
        simp only [Graphs.put, Function.update_self, Function.update_of_ne hj] at hm hn
        exact (apart j hj n hn m hm).symm
      · simp only [Graphs.put, Function.update_of_ne hj, Function.update_of_ne hk] at hm hn
        exact h.apart j k hjk m hm n hn

theorem Leads.separate {g g' : Graphs ι} (h : g.Leads g') (separate : g.Separate) :
    g'.Separate := by
  induction h with
  | refl => exact separate
  | step h i op fits ih => exact ih.put (Arena.leads_perform (ih.built i) fits).1

/-- Nodes stay where they are. -/
theorem Leads.nodes {g g' : Graphs ι} (h : g.Leads g') (separate : g.Separate) (i : ι) :
    (g.graph i).nodes.toList <+: (g'.graph i).nodes.toList := by
  induction h with
  | refl => exact List.prefix_refl _
  | @step g' h j op fits ih =>
    by_cases hj : i = j
    · subst hj
      have continues := (Arena.leads_perform ((h.separate separate).built i) fits).1.continues
      simp only [put, Function.update_self]
      exact ih.trans continues.nodes
    · simp only [put, Function.update_of_ne hj]
      exact ih

end Graphs

/-! ### Graphs of compiled programs -/

namespace Arena

/-- The nodes that interning adds are those that the node of the tree is made of. -/
theorem mem_parts_of_internIn {a : Arena} (h : a.Built (0 ≤ ·)) {s : Scope} {t : Tree} {e : Expr}
    {s' : Scope} {a' : Arena} (ht : a.internIn s t = (e, s', a')) {n : Expr}
    (hn : n ∈ a'.graph.nodes) : n ∈ a.graph.nodes ∨ n ∈ e.parts := by
  induction t generalizing a s e s' a' with
  | name token =>
    rw [internIn_name] at ht
    obtain ⟨rfl, rfl, rfl⟩ := by simpa only [Prod.mk.injEq] using ht
    rcases (makes_slot a _).mem hn with hn | rfl
    · exact .inl hn
    · exact .inr (Expr.mem_parts_self _)
  | lambda start parameter body ih =>
    rcases hb : a.internIn [parameter] body with ⟨node, inner, a₁⟩
    rw [internIn_lambda a s start parameter body hb] at ht
    obtain ⟨rfl, rfl, rfl⟩ := by simpa only [Prod.mk.injEq] using ht
    have done := interned_of_internIn h hb
    have hc := captured_nonneg (s.resolveAll inner.tail).1
    obtain ⟨id, reads, size, content⟩ := lambda_content done.built.wellFormed done.mem hc
    rcases (makes_lambda a₁ _ done.mem).mem hn with hn | rfl
    · refine (ih h hb hn).imp_right fun hp ↦ ?_
      rw [content]
      exact List.mem_cons_of_mem _ hp
    · exact .inr (Expr.mem_parts_self _)
  | apply function argument ihf ihx =>
    rcases hf : a.internIn s function with ⟨f, s₁, a₁⟩
    rcases hx : a₁.internIn s₁ argument with ⟨x, s₂, a₂⟩
    rw [internIn_apply a s function argument hf hx] at ht
    obtain ⟨rfl, rfl, rfl⟩ := by simpa only [Prod.mk.injEq] using ht
    have doneF := interned_of_internIn h hf
    have doneX := interned_of_internIn doneF.built hx
    have memF := doneX.keeps.nodes f doneF.mem
    obtain ⟨id, reads, size, content⟩ := apply_content doneX.built.wellFormed memF doneX.mem
    rcases (makes_apply a₂ memF doneX.mem).mem hn with hn | rfl
    · rw [content, Expr.parts, List.mem_cons, List.mem_append]
      rcases ihx doneF.built hx hn with hn | hp
      · exact (ihf h hf hn).imp_right fun hp ↦ .inr (.inl hp)
      · exact .inr (.inr (.inr hp))
    · exact .inr (Expr.mem_parts_self _)

end Arena

/-- A graph whose nodes are what one of them is made of has as many nodes as there are different
shapes in the shape of that node. -/
theorem Graph.Coherent.size_eq {g : Graph} (h : g.Coherent) {root : Expr}
    (parts : ∀ n, n ∈ g.nodes ↔ n ∈ root.parts) :
    g.size = root.shape.parts.dedup.length := by
  have different : (g.nodes.toList.map Expr.shape).Nodup := by
    refine List.Nodup.map_on (fun m hm n hn ↦ ?_) (h.ascending.imp fun hlt he ↦ ?_)
    · exact h.shape_inj m (Array.mem_toList_iff.mp hm) n (Array.mem_toList_iff.mp hn)
    · exact Nat.ne_of_lt hlt (congrArg Expr.id he)
  have same : (g.nodes.toList.map Expr.shape).Perm root.shape.parts.dedup := by
    refine (List.perm_ext_iff_of_nodup different (List.nodup_dedup _)).mpr fun shape ↦ ?_
    simp [root.parts_shape, parts]
  rw [Graph.size, ← same.length_eq, List.length_map, Array.length_toList]

/-- The nodes of a compiled program are what its root is made of. -/
theorem Program.parts_of_compile {source text : Bytes} {lastId last : Nat} {p : Program}
    {root : Expr} (compiled : compile source text lastId = .ok (p, last))
    (hr : p.root = some root) : p.graph.Coherent ∧ ∀ n, n ∈ p.graph.nodes ↔ n ∈ root.parts := by
  obtain ⟨built, mem⟩ := built_of_compile compiled hr
  refine ⟨built.coherent, fun n ↦ ⟨fun hn ↦ ?_, built.wellFormed.mem_of_mem_parts mem⟩⟩
  obtain ⟨tree, root', interned, hp⟩ := intern_of_compile compiled
  rw [hp] at hr
  cases hr
  rcases Arena.mem_parts_of_internIn (.empty lastId) interned hn with hn | hn
  · simp at hn
  · exact hn

/-- Whatever operations are carried out on however many graphs that share a counter, with operands
from the graph that is worked on: every graph is coherent, no number is in two graphs, later
operations leave the nodes that are there where they are, and an operation gives a node of its
graph. The graph of a program that is compiled at any such time is coherent, has just the nodes that
its root is made of, and so has as many nodes as the root has different sub-expressions. -/
theorem graphs_coherent {ι : Type} [DecidableEq ι] {lastId : Nat} {g g' : Graphs ι}
    (before : ({ lastId } : Graphs ι).Leads g) (after : g.Leads g') :
    (∀ i, (g.graph i).Coherent) ∧
      (∀ i j, i ≠ j → ∀ m ∈ (g.graph i).nodes, ∀ n ∈ (g.graph j).nodes, m.id ≠ n.id) ∧
      (∀ i, (g.graph i).nodes.toList <+: (g'.graph i).nodes.toList) ∧
      (∀ i op, op.Fits (g.graph i) →
        ((g.arena i).perform op).1 ∈ ((g.arena i).perform op).2.graph.nodes) ∧
      ∀ source text p last root, Program.compile source text g.lastId = .ok (p, last) →
        p.root = some root →
          p.graph.Coherent ∧ (∀ n, n ∈ p.graph.nodes ↔ n ∈ root.parts) ∧
            p.graph.size = root.shape.parts.dedup.length := by
  have separate := before.separate (Graphs.separate_empty lastId)
  refine ⟨fun i ↦ (separate.built i).coherent, separate.apart, after.nodes separate,
    fun i op fits ↦ (Arena.leads_perform (separate.built i) fits).2, ?_⟩
  intro source text p last root compiled hr
  obtain ⟨coherent, parts⟩ := Program.parts_of_compile compiled hr
  exact ⟨coherent, parts, coherent.size_eq parts⟩

/-- Two graphs take turns: both have a slot 0 of their own, and an abstraction over the one is made
after a tree was interned in the other. Then a program is compiled in which the identity occurs
twice. -/
theorem graphs_coherent_in_turn :
    ∃ (g : Graphs Bool) (p : Program) (last : Nat) (root : Expr),
      ({ lastId := 0 } : Graphs Bool).Leads g ∧
      (g.graph false).nodes.toList.map Expr.id = [1, 5] ∧
      (g.graph true).nodes.toList.map Expr.id = [2, 3, 4] ∧
      (∀ n, (g.graph false).find? 5 = some n ↔ n ∈ (g.graph false).nodes ∧ n.id = 5) ∧
      Program.compile (lit "t") (lit "(\\x x) (\\y y)") g.lastId = .ok (p, last) ∧
      p.root = some root ∧ p.graph.size = 3 ∧ root.parts.length = 5 ∧
      root.shape.parts.dedup.length = 3 := by
  let x : Token := ⟨.name, lit "x", ⟨[], 1, 1⟩⟩
  obtain ⟨g, leads, first, second, counter⟩ : ∃ g : Graphs Bool,
      ({ lastId := 0 } : Graphs Bool).Leads g ∧
      (g.graph false).nodes.toList.map Expr.id = [1, 5] ∧
      (g.graph true).nodes.toList.map Expr.id = [2, 3, 4] ∧ g.lastId = 5 :=
    ⟨_, .step (.step (.step (.step .refl false (.slot 0) trivial) true (.slot 0) trivial) true
      (.intern (.lambda x x (.lambda x x (.name x)))) trivial) false (.lambda [] (.slot 1 0))
      (Array.mem_of_getElem? (i := 0) (by cbv)), by cbv, by cbv, by cbv⟩
  obtain ⟨p, last, root, compiled, hr, size, parts⟩ : ∃ p last root,
      Program.compile (lit "t") (lit "(\\x x) (\\y y)") 5 = .ok (p, last) ∧ p.root = some root ∧
      p.graph.size = 3 ∧ root.parts.length = 5 :=
    ⟨_, _, _, by cbv, rfl, by decide +kernel, by decide +kernel⟩
  rw [← counter] at compiled
  obtain ⟨coherent, -, -, -, programs⟩ := graphs_coherent leads .refl
  obtain ⟨-, -, count⟩ := programs _ _ p last root compiled hr
  exact ⟨g, p, last, root, leads, first, second, fun n ↦ (coherent false).find 5 n, compiled, hr,
    size, parts, count.symm.trans size⟩

end BitCalculus
