import BitCalculus.Proofs.Graph.Resolve
import BitCalculus.Proofs.Source.Grammar
import BitCalculus.Proofs.Source.Lines

/-!
# Compiling a text again

The name of a text stands in the locations of its tokens and nowhere else, and the counter from
which a text is compiled only adds to the numbers of its nodes. So compiling one text under two
names and from two counters gives programs that are equal but for these locations and for a constant
shift of all node numbers.
-/

namespace BitCalculus

/-! ### Another name for the text -/

/-- The token at the same place of a text with another name. -/
def Token.relabel (source : Bytes) (t : Token) : Token :=
  { t with location := { t.location with source } }

@[simp] theorem Token.text_relabel (source : Bytes) (t : Token) :
    (t.relabel source).text = t.text := rfl

/-- The tree of a text with another name. -/
def Tree.relabel (source : Bytes) : Tree → Tree
  | .name token => .name (token.relabel source)
  | .lambda start parameter body =>
    .lambda (start.relabel source) (parameter.relabel source) (body.relabel source)
  | .apply function argument => .apply (function.relabel source) (argument.relabel source)

theorem Source.scan_relabel (source source' : Bytes) (line column : Nat) (glyphs : List Glyph) :
    scan source' line column glyphs =
      (scan source line column glyphs).map (Token.relabel source') := by
  rw [← Nat.add_zero line]
  apply scan_move
  simp [Token.relabel]

/-- The tokens of a text do not depend on its name but for their locations. -/
theorem tokenize_relabel (source source' text : Bytes) :
    tokenize source' text = (tokenize source text).map (Token.relabel source') :=
  Source.scan_relabel source source' 1 0 text.glyphs

theorem programTokens_relabel (source : Bytes) (tokens : List Token) :
    programTokens (tokens.map (Token.relabel source)) =
      (programTokens tokens).map (Token.relabel source) := by
  rw [programTokens, programTokens, List.takeWhile_map]
  rfl

/-- Derivations look at the kinds of tokens only. -/
theorem Derives.relabel (source : Bytes) {phrase : Phrase} {ks : List Token} {t : Tree}
    (h : Derives phrase ks t) :
    Derives phrase (ks.map (Token.relabel source)) (t.relabel source) := by
  induction h with
  | atoms _ ih => exact .atoms ih
  | atomsThenAbstraction _ _ ihf ihx =>
    rw [List.map_append]
    exact .atomsThenAbstraction ihf ihx
  | abstraction _ ih => exact .abstraction ih
  | one _ ih => exact .one ih
  | more _ _ ihf ihx =>
    rw [List.map_append]
    exact .more ihf ihx
  | name hk => exact .name hk
  | parens hl _ hr ih =>
    rw [List.map_cons, List.map_append]
    exact .parens hl ih hr
  | lambda hs hp _ ih => exact .lambda hs hp ih

/-- A text is a program under every name if it is one under some name. -/
theorem parseText_relabel (source' : Bytes) {source text : Bytes} {tree : Tree}
    (h : parseText source text = .ok tree) :
    parseText source' text = .ok (tree.relabel source') := by
  apply parse_of_derives
  rw [tokenize_relabel source source', programTokens_relabel]
  exact (derives_of_parse h).relabel source'

namespace Scope

theorem resolve_relabel (source : Bytes) (s : Scope) (token : Token) :
    resolve (s.map (Token.relabel source)) (token.relabel source) =
      ((s.resolve token).1, (s.resolve token).2.map (Token.relabel source)) := by
  have same : (s.map (Token.relabel source)).findIdx? (fun t ↦ t.text == token.text) =
      s.findIdx? fun t ↦ t.text == token.text := by
    rw [List.findIdx?_map]
    rfl
  rw [resolve, resolve, Token.text_relabel, same]
  cases s.findIdx? fun t ↦ t.text == token.text with
  | some slot => rfl
  | none => simp

theorem resolveAll_relabel (source : Bytes) (s : Scope) (tokens : List Token) :
    resolveAll (s.map (Token.relabel source)) (tokens.map (Token.relabel source)) =
      ((s.resolveAll tokens).1, (s.resolveAll tokens).2.map (Token.relabel source)) := by
  induction tokens generalizing s with
  | nil => rfl
  | cons token tokens ih => simp [resolveAll, resolve_relabel, ih]

end Scope

/-- Interning looks at the texts of names only. -/
theorem Arena.internIn_relabel (source : Bytes) (a : Arena) (s : Scope) (t : Tree) :
    a.internIn (s.map (Token.relabel source)) (t.relabel source) =
      ((a.internIn s t).1, (a.internIn s t).2.1.map (Token.relabel source),
        (a.internIn s t).2.2) := by
  induction t generalizing a s with
  | name token => simp [Tree.relabel, internIn, Scope.resolve_relabel]
  | lambda start parameter body ih =>
    have inner := ih a [parameter]
    rw [List.map_singleton] at inner
    simp [Tree.relabel, internIn, inner, ← List.map_tail, Scope.resolveAll_relabel]
  | apply function argument ihf ihx => simp [Tree.relabel, internIn, ihf, ihx]

/-- The program of a text with another name. -/
def Program.relabel (source : Bytes) (p : Program) : Program :=
  { p with source, free := p.free.map (Token.relabel source) }

theorem Program.compile_relabel (source' : Bytes) {source text : Bytes} {lastId last : Nat}
    {p : Program} (h : compile source text lastId = .ok (p, last)) :
    compile source' text lastId = .ok (p.relabel source', last) := by
  unfold compile at h ⊢
  cases ht : parseText source text with
  | error e =>
    rw [ht] at h
    cases h
  | ok tree =>
    rw [ht] at h
    have interned := Arena.internIn_relabel source' { lastId } [] tree
    rw [List.map_nil] at interned
    rw [parseText_relabel source' ht]
    cases h
    simp [Arena.intern, interned, relabel]

/-! ### Another counter -/

namespace Expr

/-- The expression with other node numbers. -/
def renumber (f : Nat → Nat) : Expr → Expr
  | slot id index => slot (f id) index
  | lambda id captured body reads size => lambda (f id) captured (body.renumber f) reads size
  | apply id function argument reads size =>
    apply (f id) (function.renumber f) (argument.renumber f) reads size

@[simp] theorem id_renumber (f : Nat → Nat) (e : Expr) : (e.renumber f).id = f e.id := by
  cases e <;> rfl

@[simp] theorem reads_renumber (f : Nat → Nat) (e : Expr) : (e.renumber f).reads = e.reads := by
  cases e <;> rfl

@[simp] theorem size_renumber (f : Nat → Nat) (e : Expr) : (e.renumber f).size = e.size := by
  cases e <;> rfl

theorem renumber_shift (n m : Nat) :
    renumber (fun id ↦ id - n + m) ∘ renumber (· + n) = renumber (· + m) := by
  funext e
  induction e with
  | slot id index => simp [renumber]
  | lambda id captured body reads size ih => simpa [renumber] using ih
  | apply id function argument reads size ihf iha => simpa [renumber] using ⟨ihf, iha⟩

end Expr

/-- The second table has the entries of the first with other keys and other values. -/
def Translates {κ β : Type} [BEq κ] [Hashable κ] (key : κ → κ) (value : β → β)
    (table table' : Std.HashMap κ β) : Prop :=
  ∀ k : κ, table'[key k]? = table[k]?.map value

namespace Translates

variable {κ β : Type} [BEq κ] [Hashable κ] {key : κ → κ} {value : β → β}
variable {table table' : Std.HashMap κ β}

theorem empty (key : κ → κ) (value : β → β) : Translates key value {} {} := by
  simp [Translates]

theorem insert [LawfulBEq κ] [LawfulHashable κ] (h : Translates key value table table')
    (inj : key.Injective) (k : κ) (b : β) :
    Translates key value (table.insert k b) (table'.insert (key k) (value b)) := by
  intro k'
  rw [Std.HashMap.getElem?_insert, Std.HashMap.getElem?_insert]
  by_cases heq : k = k'
  · simp [heq]
  · have hne : key k ≠ key k' := fun h ↦ heq (inj h)
    simp [heq, hne, h k']

end Translates

namespace Arena

/-- The second arena is the first one with `k` added to all node numbers. -/
structure Shifted (k : Nat) (a b : Arena) : Prop where
  lastId : b.lastId = a.lastId + k
  nodes : b.graph.nodes = a.graph.nodes.map (Expr.renumber (· + k))
  slots : Translates id (Expr.renumber (· + k)) a.graph.slots b.graph.slots
  lambdas : Translates (Prod.map (· + k) id) (Expr.renumber (· + k)) a.graph.lambdas
    b.graph.lambdas
  applies : Translates (Prod.map (· + k) (· + k)) (Expr.renumber (· + k)) a.graph.applies
    b.graph.applies

theorem shifted_empty (n k : Nat) : Shifted k { lastId := n } { lastId := n + k } where
  lastId := rfl
  nodes := by simp
  slots := .empty _ _
  lambdas := .empty _ _
  applies := .empty _ _

section Shifted

variable {k : Nat} {a b : Arena}

theorem Shifted.next (h : a.Shifted k b) : b.lastId + 1 = a.lastId + 1 + k := by
  rw [h.lastId]
  omega

theorem Shifted.slot (h : a.Shifted k b) (i : Int) :
    (b.slot i).1 = (a.slot i).1.renumber (· + k) ∧ (a.slot i).2.Shifted k (b.slot i).2 := by
  have found : b.graph.slots[i]? = a.graph.slots[i]?.map (Expr.renumber (· + k)) := h.slots i
  rw [Arena.slot, Arena.slot, found]
  cases a.graph.slots[i]? with
  | some n => exact ⟨rfl, h⟩
  | none =>
    have made : Expr.slot (b.lastId + 1) i = (Expr.slot (a.lastId + 1) i).renumber (· + k) := by
      rw [Expr.renumber, h.next]
    dsimp only [Option.map]
    rw [made]
    exact ⟨rfl, h.next, by simp [h.nodes], h.slots.insert Function.injective_id _ _, h.lambdas,
      h.applies⟩

theorem Shifted.lambda (h : a.Shifted k b) (captured : List Int) (body : Expr) :
    (b.lambda captured (body.renumber (· + k))).1 =
        (a.lambda captured body).1.renumber (· + k) ∧
      (a.lambda captured body).2.Shifted k (b.lambda captured (body.renumber (· + k))).2 := by
  have found := h.lambdas (body.id, Key.ofSlots captured)
  rw [Prod.map, id] at found
  rw [Arena.lambda, Arena.lambda, Expr.id_renumber, found]
  cases a.graph.lambdas[(body.id, Key.ofSlots captured)]? with
  | some n => exact ⟨rfl, h⟩
  | none =>
    have made : Expr.lambda (b.lastId + 1) captured (body.renumber (· + k))
          (Expr.sortReads captured) (Expr.joinSize body.size 0) =
        (Expr.lambda (a.lastId + 1) captured body (Expr.sortReads captured)
          (Expr.joinSize body.size 0)).renumber (· + k) := by
      rw [Expr.renumber, h.next]
    have inj := Function.Injective.prodMap (add_left_injective k)
      (Function.injective_id (α := Bytes))
    dsimp only [Option.map]
    rw [Expr.size_renumber, made]
    exact ⟨rfl, h.next, by simp [h.nodes], h.slots, h.lambdas.insert inj _ _, h.applies⟩

theorem Shifted.apply (h : a.Shifted k b) (function argument : Expr) :
    (b.apply (function.renumber (· + k)) (argument.renumber (· + k))).1 =
        (a.apply function argument).1.renumber (· + k) ∧
      (a.apply function argument).2.Shifted k
        (b.apply (function.renumber (· + k)) (argument.renumber (· + k))).2 := by
  have found := h.applies (function.id, argument.id)
  rw [Prod.map] at found
  rw [Arena.apply, Arena.apply, Expr.id_renumber, Expr.id_renumber, found]
  cases a.graph.applies[(function.id, argument.id)]? with
  | some n => exact ⟨rfl, h⟩
  | none =>
    have made : Expr.apply (b.lastId + 1) (function.renumber (· + k)) (argument.renumber (· + k))
          (Expr.mergeReads function.reads argument.reads)
          (Expr.joinSize function.size argument.size) =
        (Expr.apply (a.lastId + 1) function argument
          (Expr.mergeReads function.reads argument.reads)
          (Expr.joinSize function.size argument.size)).renumber (· + k) := by
      rw [Expr.renumber, h.next]
    have inj := Function.Injective.prodMap (add_left_injective k) (add_left_injective k)
    dsimp only [Option.map]
    rw [Expr.reads_renumber, Expr.reads_renumber, Expr.size_renumber, Expr.size_renumber, made]
    exact ⟨rfl, h.next, by simp [h.nodes], h.slots, h.lambdas, h.applies.insert inj _ _⟩

/-- Interning a tree in a shifted arena resolves all names alike and gives the shifted node. -/
theorem Shifted.internIn (h : a.Shifted k b) (s : Scope) (t : Tree) :
    (b.internIn s t).1 = (a.internIn s t).1.renumber (· + k) ∧
      (b.internIn s t).2.1 = (a.internIn s t).2.1 ∧
      (a.internIn s t).2.2.Shifted k (b.internIn s t).2.2 := by
  induction t generalizing a b s with
  | name token =>
    have made := h.slot (s.resolve token).1
    exact ⟨made.1, rfl, made.2⟩
  | lambda start parameter body ih =>
    obtain ⟨node, scope, shifted⟩ := ih h [parameter]
    have made := shifted.lambda (((s.resolveAll (a.internIn [parameter] body).2.1.tail).1.map
      Int.ofNat)) (a.internIn [parameter] body).1
    simp only [Arena.internIn, node, scope]
    exact ⟨made.1, trivial, made.2⟩
  | apply function argument ihf ihx =>
    obtain ⟨nodeF, scopeF, shiftedF⟩ := ihf h s
    obtain ⟨nodeX, scopeX, shiftedX⟩ := ihx shiftedF (a.internIn s function).2.1
    have made := shiftedX.apply (a.internIn s function).1
      ((a.internIn s function).2.2.internIn (a.internIn s function).2.1 argument).1
    simp only [Arena.internIn, nodeF, scopeF, nodeX, scopeX]
    exact ⟨made.1, trivial, made.2⟩

end Shifted

end Arena

namespace Program

/-- The second program is the first one with other node numbers; the locations of its names may
differ as well. -/
structure Renumbers (f : Nat → Nat) (p q : Program) : Prop where
  nodes : q.graph.nodes = p.graph.nodes.map (Expr.renumber f)
  root : q.root = p.root.map (Expr.renumber f)
  names : q.free.map Token.text = p.free.map Token.text

theorem compile_shift {source text : Bytes} {n last : Nat} {p : Program}
    (h : compile source text n = .ok (p, last)) (k : Nat) :
    ∃ q, compile source text (n + k) = .ok (q, last + k) ∧ p.Renumbers (· + k) q := by
  unfold compile at h ⊢
  cases ht : parseText source text with
  | error e =>
    rw [ht] at h
    cases h
  | ok tree =>
    rw [ht] at h
    cases h
    obtain ⟨node, scope, shifted⟩ := (Arena.shifted_empty n k).internIn [] tree
    exact ⟨_, by rw [← shifted.lastId]; rfl, shifted.nodes, congrArg some node,
      congrArg (List.map Token.text) scope⟩

theorem Renumbers.relabel {f : Nat → Nat} {p q : Program} (h : p.Renumbers f q)
    (source : Bytes) : p.Renumbers f (q.relabel source) where
  nodes := h.nodes
  root := h.root
  names := by simp [Program.relabel, ← h.names]

/-- Two programs that are one program with `n` and `m` added to all node numbers are equal but for a
constant shift. -/
theorem Renumbers.shift {base p q : Program} {n m : Nat} (hp : base.Renumbers (· + n) p)
    (hq : base.Renumbers (· + m) q) : p.Renumbers (fun id ↦ id - n + m) q where
  nodes := by rw [hp.nodes, hq.nodes, Array.map_map, Expr.renumber_shift]
  root := by rw [hp.root, hq.root, Option.map_map, Expr.renumber_shift]
  names := hq.names.trans hp.names.symm

/-- All programs of one text are one program with other node numbers, whatever the name of the text
and the counter from which it is compiled. -/
theorem exists_base {source text : Bytes} {n last : Nat} {p : Program}
    (h : compile source text n = .ok (p, last)) :
    ∃ (base : Program) (size : Nat), ∀ source' m, ∃ q,
      compile source' text m = .ok (q, size + m) ∧ base.Renumbers (· + m) q := by
  obtain ⟨base, size, first⟩ : ∃ base size, compile source text 0 = .ok (base, size) := by
    unfold compile at h ⊢
    split at h
    · cases h
    · exact ⟨_, _, rfl⟩
  refine ⟨base, size, fun source' m ↦ ?_⟩
  obtain ⟨q, hq, renumbers⟩ := compile_shift first m
  rw [Nat.zero_add] at hq
  exact ⟨q.relabel source', compile_relabel source' hq, renumbers.relabel source'⟩

end Program

end BitCalculus
