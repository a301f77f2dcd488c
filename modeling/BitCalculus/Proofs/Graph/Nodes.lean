import BitCalculus.Graph.Arena
import BitCalculus.Proofs.Graph.Key

/-!
# Well-formed graphs

The graph operations keep an arena well formed: numbers identify nodes, the parts of a node are
nodes of the same graph, every node records exactly the slots that it reads, and a table lists a
node under the key of its content only. An arena that was built by operations is well formed, and
what one operation returned, a later one returns again.
-/

namespace BitCalculus

namespace Expr

/-- A merge of two lists of slots holds the slots of both. -/
theorem mem_mergeReads {x : Int} (xs ys : List Int) :
    x ∈ mergeReads xs ys ↔ x ∈ xs ∨ x ∈ ys := by
  fun_induction mergeReads xs ys with
  | case1 ys => simp
  | case2 x xs => simp
  | case3 y ys z zs h ih => simp [ih, or_assoc]
  | case4 y ys z zs h h' ih =>
    rw [List.mem_cons, ih, List.mem_cons (l := zs)]
    exact or_left_comm
  | case5 y ys z zs h h' ih =>
    have he : y = z := by omega
    rw [List.mem_cons, ih, List.mem_cons, List.mem_cons, he, ← or_or_distrib_left]

/-- Sorting a list of slots keeps its members. -/
theorem mem_sortReads {x : Int} (slots : List Int) : x ∈ sortReads slots ↔ x ∈ slots := by
  induction slots with
  | nil => rfl
  | cons s slots ih =>
    rw [sortReads, List.foldr_cons, mem_mergeReads, List.mem_singleton, List.mem_cons]
    exact or_congr_right ih

/-- The nodes that a node is made of directly. -/
def children : Expr → List Expr
  | slot _ _ => []
  | lambda _ _ body _ _ => [body]
  | apply _ function argument _ _ => [function, argument]

/-- The nodes that an expression is made of, itself included. -/
def parts : Expr → List Expr
  | slot id index => [slot id index]
  | lambda id captured body reads size => lambda id captured body reads size :: body.parts
  | apply id function argument reads size =>
    apply id function argument reads size :: (function.parts ++ argument.parts)

theorem mem_parts_self (e : Expr) : e ∈ e.parts := by
  cases e <;> simp [parts]

/-- A node rests on `nodes` if its parts are among them and it records the slots that it reads; its
captured slots satisfy `ok`. -/
def RestsOn (ok : Int → Prop) (nodes : Array Expr) : Expr → Prop
  | slot _ _ => True
  | lambda _ captured body reads _ =>
    body ∈ nodes ∧ (∀ i ∈ captured, ok i) ∧ ∀ i, i ∈ reads ↔ i ∈ captured
  | apply _ function argument reads _ =>
    function ∈ nodes ∧ argument ∈ nodes ∧ ∀ i, i ∈ reads ↔ i ∈ function.reads ∨ i ∈ argument.reads

/-- A node that rests on some nodes rests on more of them. -/
theorem RestsOn.mono {ok : Int → Prop} {nodes more : Array Expr} {e : Expr}
    (h : e.RestsOn ok nodes) (le : ∀ n ∈ nodes, n ∈ more) : e.RestsOn ok more := by
  cases e with
  | slot id index => trivial
  | lambda id captured body reads size => exact ⟨le _ h.1, h.2⟩
  | apply id function argument reads size => exact ⟨le _ h.1, le _ h.2.1, h.2.2⟩

end Expr

/-- Nodes that numbers up to `lastId` identify and that rest on each other; `ok` is a property of
all captured slots. -/
structure Lawful (ok : Int → Prop) (nodes : Array Expr) (lastId : Nat) : Prop where
  id_le : ∀ n ∈ nodes, n.id ≤ lastId
  id_inj : ∀ m ∈ nodes, ∀ n ∈ nodes, m.id = n.id → m = n
  rests : ∀ n ∈ nodes, n.RestsOn ok nodes

/-- A node with a new number that rests on lawful nodes may join them. -/
theorem Lawful.push {ok : Int → Prop} {nodes : Array Expr} {lastId : Nat} {n : Expr}
    (h : Lawful ok nodes lastId) (hid : n.id = lastId + 1) (hr : n.RestsOn ok nodes) :
    Lawful ok (nodes.push n) (lastId + 1) := by
  have le : ∀ m ∈ nodes, m ∈ nodes.push n := fun m hm ↦ Array.mem_push.mpr (.inl hm)
  have apart : ∀ m ∈ nodes, m.id ≠ n.id := by
    intro m hm he
    have := h.id_le m hm
    omega
  refine ⟨?_, ?_, ?_⟩
  · intro m hm
    rcases Array.mem_push.mp hm with hm | rfl
    · exact Nat.le_succ_of_le (h.id_le m hm)
    · exact Nat.le_of_eq hid
  · intro m hm m' hm' he
    rcases Array.mem_push.mp hm with ho | hn <;> rcases Array.mem_push.mp hm' with ho' | hn'
    · exact h.id_inj m ho m' ho' he
    · exact absurd (hn' ▸ he) (apart m ho)
    · exact absurd (hn ▸ he.symm) (apart m' ho')
    · rw [hn, hn']
  · intro m hm
    rcases Array.mem_push.mp hm with hm | rfl
    · exact (h.rests m hm).mono le
    · exact hr.mono le

/-- What is found after an insertion was inserted or was there before. -/
theorem insert_cases {κ β : Type} [BEq κ] [Hashable κ] [LawfulBEq κ] [LawfulHashable κ]
    {m : Std.HashMap κ β} {k k' : κ} {v v' : β} (h : (m.insert k v)[k']? = some v') :
    (k = k' ∧ v = v') ∨ m[k']? = some v' := by
  rw [Std.HashMap.getElem?_insert] at h
  by_cases hk : k = k'
  · rw [if_pos (beq_iff_eq.mpr hk)] at h
    exact .inl ⟨hk, Option.some.inj h⟩
  · rw [if_neg (by simpa using hk)] at h
    exact .inr h

/-- Every node that the table lists is one of `nodes` and has the content of its key. -/
def Lists {κ : Type} [BEq κ] [Hashable κ] (table : Std.HashMap κ Expr) (nodes : Array Expr)
    (content : κ → Expr → Prop) : Prop :=
  ∀ (key : κ) (n : Expr), table[key]? = some n → n ∈ nodes ∧ content key n

section Tables

variable {κ : Type} [BEq κ] [Hashable κ]
variable {table : Std.HashMap κ Expr} {nodes : Array Expr} {content : κ → Expr → Prop} {n : Expr}

private theorem mem_push_of_mem {m : Expr} (h : m ∈ nodes) : m ∈ nodes.push n :=
  Array.mem_push.mpr (.inl h)

private theorem Lists.push (h : Lists table nodes content) : Lists table (nodes.push n) content :=
  fun key m hm ↦ ⟨mem_push_of_mem (h key m hm).1, (h key m hm).2⟩

variable [LawfulBEq κ] [LawfulHashable κ]

private theorem Lists.insert {key : κ} (h : Lists table nodes content) (hn : content key n) :
    Lists (table.insert key n) (nodes.push n) content := by
  intro k m hm
  rcases insert_cases hm with ⟨rfl, rfl⟩ | hm
  · exact ⟨Array.mem_push_self, hn⟩
  · exact h.push k m hm

private theorem getElem?_insert_old {key k : κ} {m : Expr} (hk : table[key]? = none)
    (h : table[k]? = some m) : (table.insert key n)[k]? = some m := by
  rw [Std.HashMap.getElem?_insert]
  by_cases he : key = k
  · subst he
    rw [hk] at h
    cases h
  · rw [if_neg (by simpa using he)]
    exact h

end Tables

/-- The expressions that evaluation may meet, each together with the number of values in its
environment: parts belong to the family again, every node records the slots that it reads, and
numbers identify nodes. -/
structure NodeFamily where
  admits : Nat → Expr → Prop
  body {n id : Nat} {captured : List Int} {body : Expr} {reads : List Int} {size : Nat} :
    admits n (.lambda id captured body reads size) → admits (captured.length + 1) body
  function {n id : Nat} {function argument : Expr} {reads : List Int} {size : Nat} :
    admits n (.apply id function argument reads size) → admits n function
  argument {n id : Nat} {function argument : Expr} {reads : List Int} {size : Nat} :
    admits n (.apply id function argument reads size) → admits n argument
  reads_lambda {n id : Nat} {captured : List Int} {body : Expr} {reads : List Int} {size : Nat} :
    admits n (.lambda id captured body reads size) → ∀ i, i ∈ reads ↔ i ∈ captured
  reads_apply {n id : Nat} {function argument : Expr} {reads : List Int} {size : Nat} :
    admits n (.apply id function argument reads size) →
      ∀ i, i ∈ reads ↔ i ∈ function.reads ∨ i ∈ argument.reads
  id_inj {n m : Nat} {d e : Expr} : admits n d → admits m e → d.id = e.id → d = e

/-- No expression of the family reads a slot that its environment does not have. -/
def NodeFamily.InRange (F : NodeFamily) : Prop :=
  ∀ n e, F.admits n e → ∀ i ∈ e.reads, 0 ≤ i ∧ i < n

/-- Lawful nodes are a family, whatever environments they are evaluated in. -/
def Lawful.family {ok : Int → Prop} {nodes : Array Expr} {lastId : Nat}
    (h : Lawful ok nodes lastId) : NodeFamily where
  admits _ e := e ∈ nodes
  body he := (h.rests _ he).1
  function he := (h.rests _ he).1
  argument he := (h.rests _ he).2.1
  reads_lambda he := (h.rests _ he).2.2
  reads_apply he := (h.rests _ he).2.2
  id_inj hd he := h.id_inj _ hd _ he

namespace Arena

/-- What every arena satisfies that was built by operations: its nodes are lawful, and its tables
list nodes under the keys of their contents. -/
structure WellFormed (ok : Int → Prop) (a : Arena) : Prop
    extends Lawful ok a.graph.nodes a.lastId where
  slots : Lists a.graph.slots a.graph.nodes fun i n ↦ ∃ id, n = .slot id i
  lambdas : Lists a.graph.lambdas a.graph.nodes fun key n ↦ ∃ id captured body reads size,
    n = .lambda id captured body reads size ∧ key = (body.id, Key.ofSlots captured)
  applies : Lists a.graph.applies a.graph.nodes fun key n ↦ ∃ id function argument reads size,
    n = .apply id function argument reads size ∧ key = (function.id, argument.id)

/-- The arena `b` has everything that `a` has. -/
structure Extends (a b : Arena) : Prop where
  nodes : ∀ n ∈ a.graph.nodes, n ∈ b.graph.nodes
  slots : ∀ (i : Int) (n : Expr), a.graph.slots[i]? = some n → b.graph.slots[i]? = some n
  lambdas : ∀ (key : Nat × Bytes) (n : Expr),
    a.graph.lambdas[key]? = some n → b.graph.lambdas[key]? = some n
  applies : ∀ (key : Nat × Nat) (n : Expr),
    a.graph.applies[key]? = some n → b.graph.applies[key]? = some n

theorem Extends.refl (a : Arena) : a.Extends a :=
  ⟨fun _ h ↦ h, fun _ _ h ↦ h, fun _ _ h ↦ h, fun _ _ h ↦ h⟩

theorem Extends.trans {a b c : Arena} (h : a.Extends b) (h' : b.Extends c) : a.Extends c :=
  ⟨fun n hn ↦ h'.nodes n (h.nodes n hn), fun i n hn ↦ h'.slots i n (h.slots i n hn),
    fun k n hn ↦ h'.lambdas k n (h.lambdas k n hn),
    fun k n hn ↦ h'.applies k n (h.applies k n hn)⟩

/-- An arena without nodes is well formed, whatever numbers were given out. -/
theorem wellFormed_empty (ok : Int → Prop) (lastId : Nat) : WellFormed ok { lastId } where
  id_le := by simp
  id_inj := by simp
  rests := by simp
  slots := by simp [Lists]
  lambdas := by simp [Lists]
  applies := by simp [Lists]

/-- Numbers given to other graphs do no harm. -/
theorem WellFormed.later {ok : Int → Prop} {a : Arena} (h : a.WellFormed ok) {n : Nat}
    (le : a.lastId ≤ n) : WellFormed ok { a with lastId := n } :=
  { h with id_le := fun m hm ↦ Nat.le_trans (h.id_le m hm) le }

/-- What an operation does: it finds its node and changes nothing, or it puts its node behind all
others, under the next number and with children that are there. -/
def Makes (a : Arena) (r : Expr × Arena) : Prop :=
  r.2 = a ∨ r.2.graph.nodes = a.graph.nodes.push r.1 ∧ r.2.lastId = a.lastId + 1 ∧
    r.1.id = a.lastId + 1 ∧ ∀ child ∈ r.1.children, child ∈ a.graph.nodes

/-- An operation adds no other node than the one that it returns. -/
theorem Makes.mem {a : Arena} {r : Expr × Arena} (h : a.Makes r) {n : Expr}
    (hn : n ∈ r.2.graph.nodes) : n ∈ a.graph.nodes ∨ n = r.1 := by
  rcases h with he | ⟨hp, -⟩
  · exact .inl (he ▸ hn)
  · rw [hp] at hn
    exact Array.mem_push.mp hn

theorem makes_slot (a : Arena) (i : Int) : a.Makes (a.slot i) := by
  unfold slot
  split
  · exact .inl rfl
  · exact .inr ⟨rfl, rfl, rfl, by simp [Expr.children]⟩

theorem makes_lambda (a : Arena) (captured : List Int) {body : Expr}
    (hb : body ∈ a.graph.nodes) : a.Makes (a.lambda captured body) := by
  unfold lambda
  dsimp only
  split
  · exact .inl rfl
  · exact .inr ⟨rfl, rfl, rfl, by simpa [Expr.children] using hb⟩

theorem makes_apply (a : Arena) {function argument : Expr} (hf : function ∈ a.graph.nodes)
    (ha : argument ∈ a.graph.nodes) : a.Makes (a.apply function argument) := by
  unfold apply
  dsimp only
  split
  · exact .inl rfl
  · exact .inr ⟨rfl, rfl, rfl, by simp [Expr.children, hf, ha]⟩

/-- What an operation did: it kept everything, the arena is well formed again, and the node that it
returned is there. -/
structure Made (ok : Int → Prop) (a : Arena) (r : Expr × Arena) : Prop where
  keeps : a.Extends r.2
  wellFormed : r.2.WellFormed ok
  mem : r.1 ∈ r.2.graph.nodes

/-- Asking for a slot gives a node that the table lists under this slot from then on. -/
theorem made_slot {ok : Int → Prop} {a : Arena} (h : a.WellFormed ok) (i : Int) :
    a.Made ok (a.slot i) ∧ (a.slot i).2.graph.slots[i]? = some (a.slot i).1 := by
  cases hs : a.graph.slots[i]? with
  | some n =>
    rw [slot, hs]
    exact ⟨⟨Extends.refl a, h, (h.slots i n hs).1⟩, hs⟩
  | none =>
    rw [slot, hs]
    have hp := h.toLawful.push (n := .slot (a.lastId + 1) i) rfl trivial
    have keeps : ∀ j n, a.graph.slots[j]? = some n →
        (a.graph.slots.insert i (.slot (a.lastId + 1) i))[j]? = some n :=
      fun _ _ ↦ getElem?_insert_old hs
    exact ⟨⟨⟨fun _ ↦ mem_push_of_mem, keeps, fun _ _ h ↦ h, fun _ _ h ↦ h⟩,
      { hp with
        slots := h.slots.insert ⟨_, rfl⟩
        lambdas := h.lambdas.push
        applies := h.applies.push }, Array.mem_push_self⟩,
      Std.HashMap.getElem?_insert_self⟩

/-- Asking for an abstraction over a node gives a node that the table lists under the key asked
for. -/
theorem made_lambda {ok : Int → Prop} {a : Arena} (h : a.WellFormed ok) {captured : List Int}
    {body : Expr} (hb : body ∈ a.graph.nodes) (hc : ∀ i ∈ captured, ok i) :
    a.Made ok (a.lambda captured body) ∧
      (a.lambda captured body).2.graph.lambdas[(body.id, Key.ofSlots captured)]? =
        some (a.lambda captured body).1 := by
  cases hs : a.graph.lambdas[(body.id, Key.ofSlots captured)]? with
  | some n =>
    rw [lambda, hs]
    exact ⟨⟨Extends.refl a, h, (h.lambdas _ n hs).1⟩, hs⟩
  | none =>
    rw [lambda, hs]
    have hp := h.toLawful.push
      (n := .lambda (a.lastId + 1) captured body (Expr.sortReads captured)
        (Expr.joinSize body.size 0)) rfl ⟨hb, hc, fun i ↦ Expr.mem_sortReads captured⟩
    exact ⟨⟨⟨fun _ ↦ mem_push_of_mem, fun _ _ h ↦ h, fun _ _ ↦ getElem?_insert_old hs,
        fun _ _ h ↦ h⟩,
      { hp with
        slots := h.slots.push
        lambdas := h.lambdas.insert ⟨_, _, _, _, _, rfl, rfl⟩
        applies := h.applies.push }, Array.mem_push_self⟩,
      Std.HashMap.getElem?_insert_self⟩

/-- Asking for an application of one node to another gives a node that the table lists under the
key asked for. -/
theorem made_apply {ok : Int → Prop} {a : Arena} (h : a.WellFormed ok) {function argument : Expr}
    (hf : function ∈ a.graph.nodes) (ha : argument ∈ a.graph.nodes) :
    a.Made ok (a.apply function argument) ∧
      (a.apply function argument).2.graph.applies[(function.id, argument.id)]? =
        some (a.apply function argument).1 := by
  cases hs : a.graph.applies[(function.id, argument.id)]? with
  | some n =>
    rw [apply, hs]
    exact ⟨⟨Extends.refl a, h, (h.applies _ n hs).1⟩, hs⟩
  | none =>
    rw [apply, hs]
    have hp := h.toLawful.push
      (n := .apply (a.lastId + 1) function argument
        (Expr.mergeReads function.reads argument.reads)
        (Expr.joinSize function.size argument.size)) rfl
      ⟨hf, ha, fun i ↦ Expr.mem_mergeReads _ _⟩
    exact ⟨⟨⟨fun _ ↦ mem_push_of_mem, fun _ _ h ↦ h, fun _ _ h ↦ h,
        fun _ _ ↦ getElem?_insert_old hs⟩,
      { hp with
        slots := h.slots.push
        lambdas := h.lambdas.push
        applies := h.applies.insert ⟨_, _, _, _, _, rfl, rfl⟩ }, Array.mem_push_self⟩,
      Std.HashMap.getElem?_insert_self⟩

/-- Arenas that operations lead to, starting with an empty graph. Captured slots satisfy `ok`, parts
are nodes of the same graph, and other graphs may take numbers in between. -/
inductive Built (ok : Int → Prop) : Arena → Prop
  | empty (lastId : Nat) : Built ok { lastId }
  | later {a : Arena} {n : Nat} (h : Built ok a) (le : a.lastId ≤ n) :
      Built ok { a with lastId := n }
  | slot {a : Arena} (h : Built ok a) (i : Int) : Built ok (a.slot i).2
  | lambda {a : Arena} {captured : List Int} {body : Expr} (h : Built ok a)
      (hb : body ∈ a.graph.nodes) (hc : ∀ i ∈ captured, ok i) : Built ok (a.lambda captured body).2
  | apply {a : Arena} {function argument : Expr} (h : Built ok a)
      (hf : function ∈ a.graph.nodes) (ha : argument ∈ a.graph.nodes) :
      Built ok (a.apply function argument).2

/-- Whatever operations lead to is well formed. -/
theorem Built.wellFormed {ok : Int → Prop} {a : Arena} (h : a.Built ok) : a.WellFormed ok := by
  induction h with
  | empty lastId => exact wellFormed_empty ok lastId
  | later h le ih => exact ih.later le
  | slot h i ih => exact (made_slot ih i).1.wellFormed
  | lambda h hb hc ih => exact (made_lambda ih hb hc).1.wellFormed
  | apply h hf ha ih => exact (made_apply ih hf ha).1.wellFormed

/-- A weaker property of captured slots holds of what was built under a stronger one. -/
theorem Built.mono {ok ok' : Int → Prop} {a : Arena} (h : a.Built ok) (le : ∀ i, ok i → ok' i) :
    a.Built ok' := by
  induction h with
  | empty lastId => exact .empty lastId
  | later h hn ih => exact .later ih hn
  | slot h i ih => exact .slot ih i
  | lambda h hb hc ih => exact .lambda ih hb fun i hi ↦ le i (hc i hi)
  | apply h hf ha ih => exact .apply ih hf ha

/-- Asking for a slot gives a node of this slot. -/
theorem slot_content {ok : Int → Prop} {a : Arena} (h : a.WellFormed ok) (i : Int) :
    ∃ id, (a.slot i).1 = .slot id i := by
  obtain ⟨made, listed⟩ := made_slot h i
  exact (made.wellFormed.slots i _ listed).2

/-- Where packed keys tell captured slots apart, asking for an abstraction gives a node with the
captures and the body asked for. -/
theorem lambda_content_in (range : Key.SlotRange) {a : Arena} (h : a.WellFormed range.Has)
    {captured : List Int} {body : Expr} (hb : body ∈ a.graph.nodes)
    (hc : ∀ i ∈ captured, range.Has i) :
    ∃ id reads size, (a.lambda captured body).1 = .lambda id captured body reads size := by
  obtain ⟨made, listed⟩ := made_lambda h hb hc
  obtain ⟨hn, id, captured', body', reads, size, he, hk⟩ := made.wellFormed.lambdas _ _ listed
  have hr := made.wellFormed.rests _ hn
  rw [he] at hr
  have hbody : body = body' :=
    made.wellFormed.id_inj body (made.keeps.nodes body hb) body' hr.1 (Prod.mk.inj hk).1
  have hcaptured : captured = captured' := Key.SlotRange.ofSlots_inj hc hr.2.1 (Prod.mk.inj hk).2
  rw [hbody, hcaptured] at he ⊢
  exact ⟨id, reads, size, he⟩

/-- Where captured slots are natural, asking for an abstraction gives a node with the captures and
the body asked for. -/
theorem lambda_content {a : Arena} (h : a.WellFormed (0 ≤ ·)) {captured : List Int} {body : Expr}
    (hb : body ∈ a.graph.nodes) (hc : ∀ i ∈ captured, 0 ≤ i) :
    ∃ id reads size, (a.lambda captured body).1 = .lambda id captured body reads size :=
  lambda_content_in .natural h hb hc

/-- Asking for an application gives a node with the parts asked for. -/
theorem apply_content {ok : Int → Prop} {a : Arena} (h : a.WellFormed ok)
    {function argument : Expr} (hf : function ∈ a.graph.nodes) (ha : argument ∈ a.graph.nodes) :
    ∃ id reads size, (a.apply function argument).1 = .apply id function argument reads size := by
  obtain ⟨made, listed⟩ := made_apply h hf ha
  obtain ⟨hn, id, function', argument', reads, size, he, hk⟩ := made.wellFormed.applies _ _ listed
  have hr := made.wellFormed.rests _ hn
  rw [he] at hr
  have hfunction : function = function' :=
    made.wellFormed.id_inj _ (made.keeps.nodes _ hf) _ hr.1 (Prod.mk.inj hk).1
  have hargument : argument = argument' :=
    made.wellFormed.id_inj _ (made.keeps.nodes _ ha) _ hr.2.1 (Prod.mk.inj hk).2
  rw [hfunction, hargument] at he ⊢
  exact ⟨id, reads, size, he⟩

/-- What a slot was given is given to it again as long as it is there. -/
theorem slot_again {ok : Int → Prop} {a b : Arena} (h : a.WellFormed ok) (i : Int)
    (keeps : (a.slot i).2.Extends b) : b.slot i = ((a.slot i).1, b) := by
  rw [slot, keeps.slots i _ (made_slot h i).2]

/-- What an abstraction was given is given to it again as long as it is there. -/
theorem lambda_again {ok : Int → Prop} {a b : Arena} (h : a.WellFormed ok) {captured : List Int}
    {body : Expr} (hb : body ∈ a.graph.nodes) (hc : ∀ i ∈ captured, ok i)
    (keeps : (a.lambda captured body).2.Extends b) :
    b.lambda captured body = ((a.lambda captured body).1, b) := by
  rw [lambda, keeps.lambdas _ _ (made_lambda h hb hc).2]

/-- What an application was given is given to it again as long as it is there. -/
theorem apply_again {ok : Int → Prop} {a b : Arena} (h : a.WellFormed ok) {function argument : Expr}
    (hf : function ∈ a.graph.nodes) (ha : argument ∈ a.graph.nodes)
    (keeps : (a.apply function argument).2.Extends b) :
    b.apply function argument = ((a.apply function argument).1, b) := by
  rw [apply, keeps.applies _ _ (made_apply h hf ha).2]

end Arena

end BitCalculus
