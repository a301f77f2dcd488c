import BitCalculus.Proofs.Graph.Coherence
import BitCalculus.Proofs.Graph.Printing
import BitCalculus.Proofs.Text.Lines
import BitCalculus.Proofs.Text.Numerals

/-!
# Printed expressions read back

The text of an expression can be read in one way only, although neither a slot nor the body of an
abstraction is closed by anything: a slot ends where its numeral ends, and a body ends where its
last slot or parenthesis does. Reading the text of a node and building what was read in the graph of
the node leads back to that very node.
-/

namespace BitCalculus

open Reading (Breaks isNumeral numeral integerAt)

/-! ### Heads of abstractions -/

namespace Expr

/-- The slots between the brackets of a head. -/
def readSlots (text : Bytes) : Option (List Int) :=
  if text.isEmpty then some [] else (text.splitOn 32).mapM numeral

/-- The captured slots of the head in front of a text, and what follows the head. -/
def readHeader : Bytes → Option (List Int × Bytes)
  | 92 :: 91 :: text =>
    match readSlots (Bytes.cut 93 text).1, (Bytes.cut 93 text).2 with
    | some captured, 32 :: rest => some (captured, rest)
    | _, _ => none
  | _ => none

theorem readSlots_join (captured : List Int) :
    readSlots (Bytes.join [32] (captured.map .ofInt)) = some captured := by
  have read : (captured.map Bytes.ofInt).mapM numeral = some captured := by
    induction captured with
    | nil => rfl
    | cons i captured ih => simp [Reading.numeral_ofInt, ih]
  cases captured with
  | nil => rfl
  | cons i captured =>
    -- A numeral has no blank, so the text is cut into the numerals again.
    have apart : ∀ text ∈ (i :: captured).map Bytes.ofInt, 32 ∉ text := by
      intro text ht
      obtain ⟨j, -, rfl⟩ := List.mem_map.mp ht
      exact Bytes.not_mem_ofInt (by decide) j
    have parts : (Bytes.join [32] ((i :: captured).map .ofInt)).splitOn 32 =
        (i :: captured).map .ofInt := by
      rw [Bytes.splitOn_eq, Bytes.join_eq, List.splitOn_intercalate 32 apart (by simp)]
    rw [readSlots, if_neg, parts, read]
    intro none
    rw [List.isEmpty_iff.mp none] at parts
    exact Bytes.ofInt_ne_nil i (List.cons.inj parts).1.symm

/-- Between the brackets of a head there are numerals and blanks. -/
theorem not_mem_slots {b : UInt8} (blank : b ≠ 32) (h : isNumeral b = false) (captured : List Int) :
    b ∉ Bytes.join [32] (captured.map .ofInt) := by
  intro hb
  rcases Bytes.mem_join hb with hb | ⟨text, ht, hb⟩
  · exact blank (List.mem_singleton.mp hb)
  · obtain ⟨i, -, rfl⟩ := List.mem_map.mp ht
    exact Bytes.not_mem_ofInt h i hb

/-- A head consists of its marks and numerals. -/
theorem not_mem_header {b : UInt8} (mark : b ∉ lit "\\[] ") (h : isNumeral b = false)
    (captured : List Int) : b ∉ header captured := by
  have marks : lit "\\[] " = [92, 91, 93, 32] := rfl
  rw [marks] at mark
  simp only [List.mem_cons, not_or] at mark
  obtain ⟨backslash, opening, closing, blank, -⟩ := mark
  have slots := not_mem_slots blank h captured
  have whole : header captured =
      92 :: 91 :: (Bytes.join [32] (captured.map .ofInt) ++ [93, 32]) := rfl
  rw [whole]
  simp [backslash, opening, closing, blank, slots]

/-- A printed expression consists of its marks and numerals. -/
theorem not_mem_text {b : UInt8} (mark : b ∉ lit "\\[] $()") (h : isNumeral b = false) (e : Expr) :
    b ∉ e.text := by
  have marks : lit "\\[] $()" = [92, 91, 93, 32, 36, 40, 41] := rfl
  rw [marks] at mark
  simp only [List.mem_cons, not_or] at mark
  obtain ⟨backslash, opening, closing, blank, dollar, left, right, -⟩ := mark
  induction e with
  | slot id index =>
    have := Bytes.not_mem_ofInt h index
    simp [text_slot, dollar, this]
  | lambda id captured body reads size ih =>
    have head : b ∉ lit "\\[] " := by
      have marks : lit "\\[] " = [92, 91, 93, 32] := rfl
      simp [marks, backslash, opening, closing, blank]
    simp [text_lambda, not_mem_header head h, ih]
  | apply id function argument reads size ihf iha =>
    simp [text_apply, left, blank, right, ihf, iha]

theorem readHeader_header (captured : List Int) (rest : Bytes) :
    readHeader (header captured ++ rest) = some (captured, rest) := by
  have inside : ∀ b ∈ Bytes.join [32] (captured.map .ofInt), (b != 93) = true := by
    intro b hb
    rw [bne_iff_ne]
    rintro rfl
    exact not_mem_slots (by decide) (by decide) captured hb
  have cut : Bytes.cut 93 (Bytes.join [32] (captured.map .ofInt) ++ 93 :: 32 :: rest) =
      (Bytes.join [32] (captured.map .ofInt), 32 :: rest) := by
    simp [Bytes.cut, List.takeWhile_append_of_pos inside, List.dropWhile_append_of_pos inside]
  have head : header captured ++ rest =
      92 :: 91 :: (Bytes.join [32] (captured.map .ofInt) ++ 93 :: 32 :: rest) := by
    rw [header, List.append_assoc, List.append_assoc]
    rfl
  rw [head, readHeader, cut, readSlots_join]
  rfl

end Expr

namespace Shape

/-- The text of an expression, which follows from its shape. -/
def text : Shape → Bytes
  | slot index => 36 :: Bytes.ofInt index
  | lambda captured body => Expr.header captured ++ body.text
  | apply function argument => 40 :: (function.text ++ 32 :: (argument.text ++ [41]))

/-- The expression in front of a text, and what follows it. A part is read only from a rest that is
shorter than the text, as every rest is. -/
def read (text : Bytes) : Option (Shape × Bytes) :=
  match text with
  | 36 :: rest => (integerAt rest).map fun (index, after) => (slot index, after)
  | 40 :: rest =>
    match read rest with
    | some (function, 32 :: middle) =>
      if middle.length < rest.length then
        match read middle with
        | some (argument, 41 :: after) => some (apply function argument, after)
        | _ => none
      else none
    | _ => none
  | 92 :: rest =>
    match Expr.readHeader (92 :: rest) with
    | some (captured, below) =>
      if below.length < rest.length then
        (read below).map fun (body, after) => (lambda captured body, after)
      else none
    | none => none
  | _ => none
termination_by text.length

/-- The expression that a whole text denotes. -/
def ofText? (text : Bytes) : Option Shape :=
  match read text with
  | some (shape, []) => some shape
  | _ => none

/-- What follows the text of an expression does not matter, as long as it does not go on like a
numeral. -/
theorem read_text (s : Shape) {rest : Bytes} (breaks : Breaks isNumeral rest) :
    read (s.text ++ rest) = some (s, rest) := by
  induction s generalizing rest with
  | slot index =>
    rw [text, List.cons_append, read, Reading.integerAt_ofInt index breaks]
    rfl
  | lambda captured body ih =>
    obtain ⟨head, hh⟩ : ∃ head, Expr.header captured = 92 :: 91 :: head := ⟨_, rfl⟩
    have read := Expr.readHeader_header captured (body.text ++ rest)
    rw [text, List.append_assoc]
    rw [hh] at read ⊢
    rw [List.cons_append, Shape.read, ← List.cons_append, read]
    dsimp only
    rw [if_pos (by simp), ih breaks]
    rfl
  | apply function argument ihf iha =>
    have second : read (argument.text ++ 41 :: rest) = some (argument, 41 :: rest) :=
      iha (Reading.breaks_cons rfl rest)
    have first : read (function.text ++ 32 :: (argument.text ++ 41 :: rest)) =
        some (function, 32 :: (argument.text ++ 41 :: rest)) :=
      ihf (Reading.breaks_cons rfl _)
    have whole : (apply function argument).text ++ rest =
        40 :: (function.text ++ 32 :: (argument.text ++ 41 :: rest)) := by
      simp [text]
    rw [whole, read]
    simp [first, second]
    omega

theorem ofText?_text (s : Shape) : ofText? s.text = some s := by
  have read := read_text s (Reading.breaks_nil _)
  rw [List.append_nil] at read
  rw [ofText?, read]

end Shape

/-- The text of a node is the text of its shape. -/
theorem Expr.text_shape (e : Expr) : e.shape.text = e.text := by
  induction e with
  | slot id index => exact (text_slot id index).symm
  | lambda id captured body reads size ih => rw [shape, Shape.text, ih, text_lambda]
  | apply id function argument reads size ihf iha => rw [shape, Shape.text, ihf, iha, text_apply]

/-- Two nodes have the same text just if they stand for the same expression. -/
theorem Expr.text_eq_iff {e₁ e₂ : Expr} : e₁.text = e₂.text ↔ e₁.shape = e₂.shape := by
  rw [← e₁.text_shape, ← e₂.text_shape]
  refine ⟨fun same ↦ ?_, congrArg Shape.text⟩
  have read := Shape.ofText?_text e₁.shape
  rw [same, Shape.ofText?_text] at read
  exact (Option.some.inj read).symm

/-! ### Building what was read -/

namespace Arena

/-- The node of a shape, built from its parts by operations. -/
def build (a : Arena) : Shape → Expr × Arena
  | .slot index => a.slot index
  | .lambda captured body =>
    let (node, a) := a.build body
    a.lambda captured node
  | .apply function argument =>
    let (first, a) := a.build function
    let (second, a) := a.build argument
    a.apply first second

/-- Building the shape of a node that is there finds this node and changes nothing. -/
theorem build_shape {ok : Int → Prop} {a : Arena} (h : a.Built ok) {e : Expr}
    (he : e ∈ a.graph.nodes) : a.build e.shape = (e, a) := by
  have found := h.finds he
  have rests := h.wellFormed.rests e he
  induction e with
  | slot id index => rw [Expr.shape, build, slot, show a.graph.slots[index]? = _ from found]
  | lambda id captured body reads size ih =>
    have inner := ih rests.1 (h.finds rests.1) (h.wellFormed.rests body rests.1)
    rw [Expr.shape, build, inner]
    dsimp only
    rw [lambda, show a.graph.lambdas[(body.id, Key.ofSlots captured)]? = _ from found]
  | apply id function argument reads size ihf iha =>
    obtain ⟨memF, memA, -⟩ := rests
    have first := ihf memF (h.finds memF) (h.wellFormed.rests _ memF)
    have second := iha memA (h.finds memA) (h.wellFormed.rests _ memA)
    rw [Expr.shape, build, first]
    dsimp only
    rw [second]
    dsimp only
    rw [apply, show a.graph.applies[(function.id, argument.id)]? = _ from found]

end Arena

/-- Nodes with the same text stand for the same expression, whatever slots and captures they have
and however deep they are: the text can be read in one way only. In a graph that operations led to,
nodes therefore have the same text just if they have the same number, and building what was read off
the text of a node gives this node and leaves the graph as it is. -/
theorem texts_read_back {ι : Type} [DecidableEq ι] {lastId : Nat} {g : Graphs ι}
    (leads : ({ lastId } : Graphs ι).Leads g) :
    (∀ e₁ e₂ : Expr, e₁.text = e₂.text ↔ e₁.shape = e₂.shape) ∧
      (∀ e : Expr, Shape.ofText? e.text = some e.shape) ∧
      ∀ i, ∀ m ∈ (g.graph i).nodes,
        (∀ n ∈ (g.graph i).nodes, m.text = n.text ↔ m.id = n.id) ∧
          (Shape.ofText? m.text).map (g.arena i).build = some (m, g.arena i) := by
  have read (e : Expr) : Shape.ofText? e.text = some e.shape := by
    rw [← e.text_shape, Shape.ofText?_text]
  refine ⟨fun _ _ ↦ Expr.text_eq_iff, read, fun i m hm ↦ ⟨fun n hn ↦ ⟨fun same ↦ ?_, fun same ↦ ?_⟩,
    ?_⟩⟩
  all_goals have built := (leads.separate (Graphs.separate_empty lastId)).built i
  · rw [built.shape_inj hm hn (Expr.text_eq_iff.mp same)]
  · rw [built.wellFormed.id_inj m hm n hn same]
  · rw [read, Option.map_some, Arena.build_shape built hm]

/-- An abstraction over an application of a negative slot to slot 0, which captures both, is read
back to its node, the fourth one of its graph. -/
theorem texts_read_back_negative :
    ∃ (g : Graphs Unit) (m : Expr), ({ lastId := 0 } : Graphs Unit).Leads g ∧
      m ∈ (g.graph ()).nodes ∧ m.id = 4 ∧ m.text = lit "\\[-1 0] ($-1 $0)" ∧
      (∀ n ∈ (g.graph ()).nodes, m.text = n.text ↔ m.id = n.id) ∧
      (Shape.ofText? (lit "\\[-1 0] ($-1 $0)")).map (g.arena ()).build = some (m, g.arena ()) := by
  obtain ⟨g, m, leads, mem, number, text⟩ : ∃ (g : Graphs Unit) (m : Expr),
      ({ lastId := 0 } : Graphs Unit).Leads g ∧ m ∈ (g.graph ()).nodes ∧ m.id = 4 ∧
      m.text = lit "\\[-1 0] ($-1 $0)" :=
    ⟨_, _, .step (.step (.step (.step .refl () (.slot (-1)) trivial) () (.slot 0) trivial) ()
      (.apply (.slot 1 (-1)) (.slot 2 0))
      ⟨Array.mem_of_getElem? (i := 0) (by cbv), Array.mem_of_getElem? (i := 1) (by cbv)⟩) ()
      (.lambda [-1, 0] (.apply 3 (.slot 1 (-1)) (.slot 2 0) [-1, 0] 3))
      (Array.mem_of_getElem? (i := 2) (by cbv)),
      Array.mem_of_getElem? (i := 3) (by cbv), by cbv, by cbv⟩
  obtain ⟨-, -, back⟩ := texts_read_back leads
  obtain ⟨unique, same⟩ := back () m mem
  rw [text] at same
  exact ⟨g, m, leads, mem, number, text, unique, same⟩

end BitCalculus
