import BitCalculus.Program
import BitCalculus.Proofs.Graph.Readback

/-!
# Dumps spell out their roots

A dump defines one node on each line, in terms of the numbers of nodes that were defined above. It
is read from its end: the last line names the root, and the lines above it are definitions up to the
first one that is none, whatever the names of the program and of its free variables hold. Expanding
the number of the root through the definitions gives the expression that the root stands for,
however much larger than the dump that is.
-/

namespace BitCalculus

open Reading (isNumeral numeral digits numberAt)

/-! ### Definitions -/

/-- What a node is made of, its parts given by their numbers. -/
inductive Definition.Content where
  | slot (index : Int)
  | lambda (captured : List Int) (body : Nat)
  | apply (function argument : Nat)
deriving DecidableEq

/-- What a line of a dump says: the number of a node and what the node is made of. -/
structure Definition where
  id : Nat
  content : Definition.Content
deriving DecidableEq

namespace Definition.Content

/-- The numbers that a content refers to. -/
def references : Content → List Nat
  | slot _ => []
  | lambda _ body => [body]
  | apply function argument => [function, argument]

/-- How a content is written. -/
def text : Content → Bytes
  | slot index => lit "$" ++ .ofInt index
  | lambda captured body => Expr.header captured ++ lit "#" ++ .ofNat body
  | apply function argument => lit "(#" ++ .ofNat function ++ lit " #" ++ .ofNat argument ++ lit ")"

/-- The content that a text describes. -/
def read : Bytes → Option Content
  | 36 :: rest => (numeral rest).map slot
  | 40 :: 35 :: rest =>
    match numberAt rest with
    | some (function, 32 :: 35 :: rest) =>
      match numberAt rest with
      | some (argument, [41]) => some (apply function argument)
      | _ => none
    | _ => none
  | 92 :: rest =>
    match Expr.readHeader (92 :: rest) with
    | some (captured, 35 :: rest) => (digits 10 rest).map (lambda captured)
    | _ => none
  | _ => none

theorem read_text (c : Content) : read c.text = some c := by
  cases c with
  | slot index =>
    have cut : (slot index).text = 36 :: Bytes.ofInt index := rfl
    rw [cut, read, Reading.numeral_ofInt]
    rfl
  | lambda captured body =>
    have head := Expr.readHeader_header captured (35 :: Bytes.ofNat body)
    obtain ⟨rest, hr⟩ : ∃ rest, Expr.header captured ++ 35 :: Bytes.ofNat body = 92 :: rest :=
      ⟨_, rfl⟩
    have cut : (lambda captured body).text = 92 :: rest := by
      rw [← hr, text, List.append_assoc]
      rfl
    rw [hr] at head
    rw [cut, read, head]
    simp [Reading.digits_ofNat]
  | apply function argument =>
    have second : numberAt (Bytes.ofNat argument ++ [41]) = some (argument, [41]) :=
      Reading.numberAt_ofNat argument (Reading.breaks_cons rfl [])
    have first : numberAt (Bytes.ofNat function ++ 32 :: 35 :: (Bytes.ofNat argument ++ [41])) =
        some (function, 32 :: 35 :: (Bytes.ofNat argument ++ [41])) :=
      Reading.numberAt_ofNat function (Reading.breaks_cons rfl _)
    have cut : (apply function argument).text =
        40 :: 35 :: (Bytes.ofNat function ++ 32 :: 35 :: (Bytes.ofNat argument ++ [41])) := by
      simp only [text, List.append_assoc]
      rfl
    rw [cut, read]
    simp [first, second]

end Definition.Content

namespace Definition

/-- How a definition is written. -/
def text (d : Definition) : Bytes :=
  lit "#" ++ .ofNat d.id ++ lit " = " ++ d.content.text

/-- The definition on a line, which has to be written as definitions are. -/
def ofLine? : Bytes → Option Definition
  | 35 :: line =>
    match numberAt line with
    | some (id, 32 :: 61 :: 32 :: rest) =>
      ((Content.read rest).map (Definition.mk id)).filter (·.text = 35 :: line)
    | _ => none
  | _ => none

theorem ofLine?_text (d : Definition) : ofLine? d.text = some d := by
  have number : numberAt (Bytes.ofNat d.id ++ 32 :: 61 :: 32 :: d.content.text) =
      some (d.id, 32 :: 61 :: 32 :: d.content.text) :=
    Reading.numberAt_ofNat d.id (Reading.breaks_cons rfl _)
  have cut : d.text = 35 :: (Bytes.ofNat d.id ++ 32 :: 61 :: 32 :: d.content.text) := by
    simp only [text, List.append_assoc]
    rfl
  rw [cut, ofLine?]
  simp [number, Content.read_text, Option.filter, cut]

theorem text_of_ofLine? {line : Bytes} {d : Definition} (h : ofLine? line = some d) :
    d.text = line := by
  unfold ofLine? at h
  split at h
  · split at h
    · have := (Option.filter_eq_some_iff.mp h).2
      simpa using this
    · cases h
  · cases h

/-- A definition is written on one line. -/
theorem lineFeed_not_mem_text (d : Definition) : 10 ∉ d.text := by
  have number (n : Nat) := Bytes.not_mem_ofNat (b := 10) rfl n
  have marks : ∀ m ∈ ["#", " = ", "$", "(#", " #", ")"], 10 ∉ lit m := by decide
  cases d with
  | mk id content =>
    cases content with
    | slot index =>
      have := Bytes.not_mem_ofInt (b := 10) rfl index
      simp_all [text, Content.text]
    | lambda captured body =>
      have := Expr.not_mem_header (b := 10) (by decide) rfl captured
      simp_all [text, Content.text]
    | apply function argument => simp_all [text, Content.text]

end Definition

/-! ### Ends of lines -/

/-- Whether a byte belongs to a numeral or closes a parenthesis. -/
def endsLine (b : UInt8) : Bool :=
  isNumeral b || b == 41

theorem endsLine_of_mem_ofNat {n : Nat} {b : UInt8} (h : b ∈ Bytes.ofNat n) : endsLine b := by
  simp [endsLine, isNumeral, Bytes.isDigit_of_mem_ofNat h]

theorem endsLine_of_mem_ofInt {i : Int} {b : UInt8} (h : b ∈ Bytes.ofInt i) : endsLine b := by
  simp [endsLine, Bytes.isNumeral_of_mem_ofInt h]

/-- The last byte of a line that neither belongs to a numeral nor closes a parenthesis. -/
def lastMark (line : Bytes) : Option UInt8 :=
  line.reverse.find? fun b => !endsLine b

/-- What stands before the last mark does not matter. -/
theorem lastMark_append (line : Bytes) {mark : UInt8} {rest : Bytes} (hm : endsLine mark = false)
    (hr : ∀ b ∈ rest, endsLine b) : lastMark (line ++ mark :: rest) = some mark := by
  have skipped : rest.reverse.find? (fun b => !endsLine b) = none := by
    simpa using hr
  rw [lastMark, List.reverse_append, List.reverse_cons, List.append_assoc, List.find?_append,
    skipped]
  simp [hm]

theorem exists_of_lastMark {line : Bytes} {mark : UInt8} (h : lastMark line = some mark) :
    ∃ start rest, line = start ++ mark :: rest ∧ endsLine mark = false ∧
      ∀ b ∈ rest, endsLine b := by
  obtain ⟨hm, before, after, hl, skipped⟩ := List.find?_eq_some_iff_append.mp h
  refine ⟨after.reverse, before.reverse, ?_, by simpa using hm, by simpa using skipped⟩
  rw [← List.reverse_inj, hl]
  simp

/-- The last mark of a definition belongs to a slot or to a reference. -/
theorem Definition.lastMark_text (d : Definition) :
    lastMark d.text = some 36 ∨ lastMark d.text = some 35 := by
  cases d with
  | mk id content =>
    cases content with
    | slot index =>
      exact .inl (lastMark_append (lit "#" ++ Bytes.ofNat id ++ lit " = ") rfl fun _ ↦
        endsLine_of_mem_ofInt)
    | lambda captured body =>
      have cut : text ⟨id, .lambda captured body⟩ =
          lit "#" ++ Bytes.ofNat id ++ lit " = " ++ Expr.header captured ++
            35 :: Bytes.ofNat body := by
        simp only [text, Content.text, List.append_assoc]
        rfl
      rw [cut]
      exact .inr (lastMark_append _ rfl fun _ ↦ endsLine_of_mem_ofNat)
    | apply function argument =>
      have cut : text ⟨id, .apply function argument⟩ =
          lit "#" ++ Bytes.ofNat id ++ lit " = (#" ++ Bytes.ofNat function ++ lit " " ++
            35 :: (Bytes.ofNat argument ++ [41]) := by
        simp only [text, Content.text, List.append_assoc]
        rfl
      rw [cut]
      refine .inr (lastMark_append _ rfl fun b hb ↦ ?_)
      rcases List.mem_append.mp hb with hb | hb
      · exact endsLine_of_mem_ofNat hb
      · rw [List.mem_singleton.mp hb]
        rfl

/-- The line ends neither like a definition nor with an empty line. -/
def EndsOtherwise (line : Bytes) : Prop :=
  ∃ mark, lastMark line = some mark ∧ mark ∉ [10, 35, 36]

/-- A line that ends otherwise holds no definition. -/
theorem EndsOtherwise.ofLine? {line : Bytes} (h : EndsOtherwise line) :
    Definition.ofLine? line = none := by
  obtain ⟨mark, hm, other⟩ := h
  cases hd : Definition.ofLine? line with
  | none => rfl
  | some d =>
    rw [← Definition.text_of_ofLine? hd] at hm
    rcases d.lastMark_text with he | he
    · cases hm.symm.trans he
      exact absurd other (by decide)
    · cases hm.symm.trans he
      exact absurd other (by decide)

/-- The last line within a line that ends otherwise ends otherwise, too. -/
theorem EndsOtherwise.exists_splitOn {line : Bytes} (h : EndsOtherwise line) :
    ∃ parts last, line.splitOn 10 = parts ++ [last] ∧ EndsOtherwise last := by
  obtain ⟨mark, hm, other⟩ := h
  obtain ⟨start, rest, rfl, outside, ends⟩ := exists_of_lastMark hm
  have apart : 10 ∉ mark :: rest := by
    rw [List.mem_cons, not_or]
    refine ⟨?_, fun hb ↦ absurd (ends 10 hb) (by decide)⟩
    rintro rfl
    exact absurd other (by decide)
  obtain ⟨parts, last, hs⟩ := Bytes.exists_splitOn_append start apart
  exact ⟨parts, last ++ mark :: rest, hs, mark, lastMark_append last outside ends, other⟩

/-! ### Reading dumps -/

/-- What a dump says: the definitions of the nodes and the number of the root. -/
structure Dump where
  definitions : List Definition
  root : Nat

namespace Dump

/-- The definitions at the start of a list of lines. -/
def definitionsOf : List Bytes → List Definition
  | [] => []
  | line :: lines =>
    match Definition.ofLine? line with
    | some d => d :: definitionsOf lines
    | none => []

/-- The number that the line of the root names. -/
def rootOf? (line : Bytes) : Option Nat :=
  if (lit "root = #").isPrefixOf line then digits 10 (line.drop 8) else none

/-- What a text says if it is read as a dump, from its end upwards. -/
def ofText? (text : Bytes) : Option Dump :=
  match (text.splitOn 10).reverse with
  | [] :: last :: lines => (rootOf? last).map fun root => ⟨(definitionsOf lines).reverse, root⟩
  | _ => none

theorem definitionsOf_append (ds : List Definition) (lines : List Bytes) :
    definitionsOf (ds.map Definition.text ++ lines) = ds ++ definitionsOf lines := by
  induction ds with
  | nil => rfl
  | cons d ds ih => simp [definitionsOf, Definition.ofLine?_text, ih]

theorem rootOf?_text (root : Nat) : rootOf? (lit "root = #" ++ .ofNat root) = some root := by
  rw [rootOf?, if_pos (List.isPrefixOf_iff_prefix.mpr (List.prefix_append _ _))]
  exact Reading.digits_ofNat root

/-- Whatever stands above the definitions, as long as it ends otherwise: the definitions and the
root are read off the lines. -/
theorem ofText?_ofLines {front : List Bytes} {last : Bytes} (h : EndsOtherwise last)
    (ds : List Definition) (root : Nat) :
    ofText? (Bytes.ofLines (front ++ [last] ++ ds.map Definition.text ++
      [lit "root = #" ++ .ofNat root])) = some ⟨ds, root⟩ := by
  obtain ⟨parts, part, hs, otherwise⟩ := h.exists_splitOn
  have bottom : 10 ∉ lit "root = #" ++ Bytes.ofNat root := by
    rw [List.mem_append, not_or]
    exact ⟨by decide, Bytes.not_mem_ofNat rfl root⟩
  have apart : (ds.map Definition.text).flatMap (Bytes.splitOn 10) = ds.map Definition.text := by
    induction ds with
    | nil => rfl
    | cons d ds ih => simp [Bytes.splitOn_of_not_mem d.lineFeed_not_mem_text, ih]
  have lines : ((Bytes.ofLines (front ++ [last] ++ ds.map Definition.text ++
      [lit "root = #" ++ .ofNat root])).splitOn 10).reverse =
        [] :: (lit "root = #" ++ Bytes.ofNat root) :: ((ds.reverse).map Definition.text ++
          part :: (front.flatMap (Bytes.splitOn 10) ++ parts).reverse) := by
    rw [Bytes.splitOn_ofLines]
    simp [apart, hs, Bytes.splitOn_of_not_mem bottom]
  rw [ofText?, lines]
  dsimp only
  rw [rootOf?_text, definitionsOf_append, definitionsOf, otherwise.ofLine?]
  simp

end Dump

/-! ### Expanding definitions -/

/-- The expression that a number stands for by some definitions, the lowest one first. A definition
may refer to those above it only. -/
def Definition.expand : List Definition → Nat → Option Shape
  | [], _ => none
  | d :: above, id =>
    if d.id = id then
      match d.content with
      | .slot index => some (.slot index)
      | .lambda captured body => (expand above body).map (.lambda captured)
      | .apply function argument =>
        match expand above function, expand above argument with
        | some function, some argument => some (.apply function argument)
        | _, _ => none
    else expand above id

/-- The expression that a dump spells out. -/
def Dump.expand (d : Dump) : Option Shape :=
  Definition.expand d.definitions.reverse d.root

/-- Every number that a definition refers to is defined further up. -/
def Dump.RefersUp (d : Dump) : Prop :=
  ∀ (i : Nat) (e : Definition), d.definitions[i]? = some e →
    ∀ id ∈ e.content.references, ∃ j < i, ∃ e', d.definitions[j]? = some e' ∧ e'.id = id

namespace Expr

/-- What the line of a node says. -/
def definition : Expr → Definition
  | slot id index => ⟨id, .slot index⟩
  | lambda id captured body _ _ => ⟨id, .lambda captured body.id⟩
  | apply id function argument _ _ => ⟨id, .apply function.id argument.id⟩

theorem id_definition (e : Expr) : e.definition.id = e.id := by
  cases e <;> rfl

theorem references_definition (e : Expr) :
    e.definition.content.references = e.children.map Expr.id := by
  cases e <;> rfl

theorem text_definition (e : Expr) : e.definition.text = Program.nodeLine e := by
  cases e <;> simp [definition, Definition.text, Definition.Content.text, Program.nodeLine] <;> rfl

/-- A node is spelled out below its children. -/
theorem expand_definition {above : List Definition} {n : Expr}
    (h : ∀ child ∈ n.children, Definition.expand above child.id = some child.shape) :
    Definition.expand (n.definition :: above) n.id = some n.shape := by
  rw [Definition.expand, if_pos n.id_definition]
  cases n with
  | slot id index => rfl
  | lambda id captured body reads size =>
    have inner := h body (by simp [children])
    simp [definition, shape, inner]
  | apply id function argument reads size =>
    have first := h function (by simp [children])
    have second := h argument (by simp [children])
    simp [definition, shape, first, second]

/-- Where numbers ascend and children stand before their parents, the definitions of the nodes spell
out each of them. -/
theorem expand_definitions {nodes : List Expr} (ascending : nodes.Pairwise fun m n ↦ m.id < n.id)
    (children : ∀ (i : Nat) (n : Expr), nodes[i]? = some n →
      ∀ child ∈ n.children, ∃ j < i, nodes[j]? = some child) {n : Expr} (hn : n ∈ nodes) :
    Definition.expand (nodes.map definition).reverse n.id = some n.shape := by
  induction nodes using List.reverseRecOn generalizing n with
  | nil => simp at hn
  | append_singleton nodes last ih =>
    obtain ⟨ascends, -, below⟩ := List.pairwise_append.mp ascending
    -- What stands before a node of `nodes` or before the last one is in `nodes`.
    have earlier {i : Nat} {m : Expr} (hi : i ≤ nodes.length)
        (hm : (nodes ++ [last])[i]? = some m) :
        ∀ child ∈ m.children, ∃ j < i, nodes[j]? = some child := by
      intro child hc
      obtain ⟨j, hj, found⟩ := children i m hm child hc
      rw [List.getElem?_append_left (by omega)] at found
      exact ⟨j, hj, found⟩
    have spelled {m : Expr} (hm : m ∈ nodes) :
        Definition.expand (nodes.map definition).reverse m.id = some m.shape := by
      refine ih ascends (fun i m hm ↦ ?_) hm
      have inside := (List.getElem?_eq_some_iff.mp hm).1
      exact earlier (Nat.le_of_lt inside) (by rw [List.getElem?_append_left inside, hm])
    rw [List.map_append, List.reverse_append]
    rcases List.mem_append.mp hn with hn | hn
    · have := below n hn last (List.mem_singleton_self last)
      have apart : last.definition.id ≠ n.id := by
        rw [last.id_definition]
        omega
      change Definition.expand (last.definition :: (nodes.map definition).reverse) n.id = _
      rw [Definition.expand, if_neg apart, spelled hn]
    · rw [List.mem_singleton.mp hn]
      refine expand_definition fun child hc ↦ ?_
      obtain ⟨j, -, found⟩ := earlier (Nat.le_refl _) (by simp) child hc
      exact spelled (List.mem_of_getElem? found)

end Expr

/-- The definitions of the nodes of a graph refer upwards. -/
theorem Graph.Coherent.refersUp {g : Graph} (h : g.Coherent) (root : Nat) :
    Dump.RefersUp ⟨g.nodes.toList.map Expr.definition, root⟩ := by
  intro i e he id hid
  rw [List.getElem?_map, Option.map_eq_some_iff] at he
  obtain ⟨n, hn, rfl⟩ := he
  rw [n.references_definition] at hid
  obtain ⟨child, hc, rfl⟩ := List.mem_map.mp hid
  obtain ⟨j, hj, found⟩ := h.children i n (by simpa using hn) child hc
  refine ⟨j, hj, child.definition, ?_, child.id_definition⟩
  rw [List.getElem?_map, Array.getElem?_toList, found]
  rfl

/-! ### Programs -/

/-- A program that was compiled, or that was put together around a node of a graph that operations
led to. -/
inductive Program.Constructed : Program → Prop
  | compiled {source text : Bytes} {lastId last : Nat} {p : Program}
      (h : compile source text lastId = .ok (p, last)) : Constructed p
  | assembled {ι : Type} [DecidableEq ι] {lastId : Nat} {g : Graphs ι}
      (leads : ({ lastId } : Graphs ι).Leads g) (i : ι) {root : Expr}
      (mem : root ∈ (g.graph i).nodes) (source : Bytes) (free : List Token) :
      Constructed ⟨source, g.graph i, some root, free⟩

namespace Program

theorem Constructed.exists_root {p : Program} (h : p.Constructed) :
    ∃ root, p.root = some root ∧ root ∈ p.graph.nodes ∧ p.graph.Coherent := by
  cases h with
  | compiled h =>
    obtain ⟨tree, root, -, hp⟩ := intern_of_compile h
    have hr : p.root = some root := by rw [hp]
    obtain ⟨built, mem⟩ := built_of_compile h hr
    exact ⟨root, hr, mem, built.coherent⟩
  | assembled leads i mem source free =>
    have separate := leads.separate (Graphs.separate_empty _)
    exact ⟨_, rfl, mem, (separate.built i).coherent⟩

/-- The first line of a dump: the name of the program and how many nodes there are. -/
def headLine (source : Bytes) (count : Nat) : Bytes :=
  lit "# " ++ source ++ lit ": " ++ .ofNat count ++ lit " nodes"

theorem endsOtherwise_headLine (source : Bytes) (count : Nat) :
    EndsOtherwise (headLine source count) := by
  have cut : headLine source count =
      (lit "# " ++ source ++ lit ": " ++ Bytes.ofNat count ++ lit " node") ++ 115 :: [] := by
    simp only [headLine, List.append_assoc]
    rfl
  rw [cut]
  exact ⟨115, lastMark_append _ rfl (by simp), by decide⟩

theorem endsOtherwise_freeLine (token : Token) (slot : Nat) :
    EndsOtherwise (freeLine token slot) := by
  obtain ⟨start, cut⟩ : ∃ start, freeLine token slot =
      start ++ 58 :: (Bytes.ofInt token.location.column ++ [41]) := by
    refine ⟨lit "# $" ++ Bytes.ofNat slot ++ lit " = " ++
      (if token.kind = .name then token.text.quoted else token.kind.text) ++ lit " (" ++
      token.location.source ++ lit ":" ++ Bytes.ofInt token.location.line, ?_⟩
    simp only [freeLine, Token.describe, Location.text, List.append_assoc]
    rfl
  rw [cut]
  refine ⟨58, lastMark_append _ rfl fun b hb ↦ ?_, by decide⟩
  rcases List.mem_append.mp hb with hb | hb
  · exact endsLine_of_mem_ofInt hb
  · rw [List.mem_singleton.mp hb]
    rfl

/-- What stands above the definitions of a dump ends otherwise, whatever the program and its free
variables are called. -/
theorem exists_front (p : Program) :
    ∃ front last, EndsOtherwise last ∧
      headLine p.source p.graph.size ::
        p.free.mapIdx (fun slot token => freeLine token slot) = front ++ [last] := by
  rcases List.eq_nil_or_concat (p.free.mapIdx fun slot token => freeLine token slot) with
    none | ⟨lines, last, names⟩
  · exact ⟨[], _, endsOtherwise_headLine p.source p.graph.size, by rw [none]; rfl⟩
  · have mem : last ∈ p.free.mapIdx fun slot token => freeLine token slot := by simp [names]
    obtain ⟨slot, _, hl⟩ := List.mem_mapIdx.mp mem
    refine ⟨headLine p.source p.graph.size :: lines, last, ?_, ?_⟩
    · rw [← hl]
      exact endsOtherwise_freeLine _ slot
    · rw [names, List.concat_eq_append, List.cons_append]

/-- The lines of a dump. -/
theorem dump_eq {p : Program} {root : Expr} (hr : p.root = some root) :
    p.dump = .ok (Bytes.ofLines (headLine p.source p.graph.size ::
      p.free.mapIdx (fun slot token => freeLine token slot) ++
      (p.graph.nodes.toList.map Expr.definition).map Definition.text ++
      [lit "root = #" ++ .ofNat root.id])) := by
  have lines : (p.graph.nodes.toList.map Expr.definition).map Definition.text =
      p.graph.nodes.toList.map nodeLine := by
    simp [Expr.text_definition]
  rw [dump, hr, lines]
  rfl

end Program

/-- Of every program that was compiled, or put together around a node of a graph that operations led
to, the dump can be read back from its text alone, whatever bytes the names in it hold. It has a
definition for each node of the graph, in the order of creation, and its first line says how many
they are; no number is defined twice, and definitions refer to numbers that are defined further up
only. Expanding the number of the root through the definitions gives the expression that the root
stands for, and so its text. -/
theorem dump_spells_out_root {p : Program} (h : p.Constructed) :
    ∃ (root : Expr) (text : Bytes) (d : Dump), p.root = some root ∧ p.dump = .ok text ∧
      Dump.ofText? text = some d ∧ d.root = root.id ∧
      (∃ names, text = Bytes.ofLines (Program.headLine p.source d.definitions.length ::
        names ++ d.definitions.map Definition.text ++ [lit "root = #" ++ .ofNat d.root])) ∧
      d.definitions.map Definition.id = p.graph.nodes.toList.map Expr.id ∧
      (d.definitions.map Definition.id).Nodup ∧ d.RefersUp ∧
      d.expand = some root.shape ∧ d.expand.map Shape.text = some root.text := by
  obtain ⟨root, hr, mem, coherent⟩ := h.exists_root
  have numbers : (p.graph.nodes.toList.map Expr.definition).map Definition.id =
      p.graph.nodes.toList.map Expr.id := by
    simp [Expr.id_definition]
  have expanded : Dump.expand ⟨p.graph.nodes.toList.map Expr.definition, root.id⟩ =
      some root.shape :=
    Expr.expand_definitions coherent.ascending (by simpa using coherent.children)
      (Array.mem_toList_iff.mpr mem)
  refine ⟨root, _, ⟨p.graph.nodes.toList.map Expr.definition, root.id⟩, hr, Program.dump_eq hr,
    ?_, rfl, ⟨p.free.mapIdx fun slot token => Program.freeLine token slot, ?_⟩, numbers, ?_, ?_,
    expanded, ?_⟩
  · obtain ⟨front, last, otherwise, hf⟩ := p.exists_front
    rw [hf]
    exact Dump.ofText?_ofLines otherwise _ root.id
  · simp [Graph.size]
  · rw [numbers]
    exact List.pairwise_map.mpr (coherent.ascending.imp Nat.ne_of_lt)
  · exact coherent.refersUp root.id
  · rw [expanded, Option.map_some, root.text_shape]

/-- A program whose name holds a line that looks like a definition: its four nodes, numbered after
six others, are read back, and the dump spells out the text of its root, in which the identity
occurs twice. -/
theorem dump_spells_out_root_named :
    ∃ (p : Program) (last : Nat) (text : Bytes) (d : Dump),
      Program.compile (lit "a\n#1 = $5") (lit "(\\x x) (\\y y) z") 6 = .ok (p, last) ∧
      p.dump = .ok text ∧ Dump.ofText? text = some d ∧
      d.definitions.map Definition.id = [7, 8, 9, 10] ∧
      d.expand.map Shape.text = some (lit "((\\[] $0 \\[] $0) $0)") := by
  obtain ⟨p, last, root, compiled, hr, numbers, whole⟩ : ∃ p last root,
      Program.compile (lit "a\n#1 = $5") (lit "(\\x x) (\\y y) z") 6 = .ok (p, last) ∧
      p.root = some root ∧ p.graph.nodes.toList.map Expr.id = [7, 8, 9, 10] ∧
      root.text = lit "((\\[] $0 \\[] $0) $0)" :=
    ⟨_, _, _, by cbv, rfl, by cbv, by cbv⟩
  obtain ⟨root', text, d, hr', dumped, read, -, -, same, -, -, -, expanded⟩ :=
    dump_spells_out_root (.compiled compiled)
  cases hr.symm.trans hr'
  rw [whole] at expanded
  exact ⟨p, last, text, d, compiled, dumped, read, same.trans numbers, expanded⟩

end BitCalculus
