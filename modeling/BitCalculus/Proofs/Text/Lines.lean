import Mathlib
import BitCalculus.Text.Glyph

/-!
# The lines of a text

A text is cut into lines at its line feeds, and a line into glyphs. So every byte has a place: it
ends a line, or it belongs to one glyph of one line. What stands before a place is spelled by the
lines above and by the glyphs to the left.
-/

namespace BitCalculus

/-! ### Cutting at line feeds -/

namespace Bytes

theorem splitOn_eq (mark : UInt8) (text : Bytes) : splitOn mark text = List.splitOn mark text := by
  induction text with
  | nil => rfl
  | cons b text ih =>
    have parts := List.splitOn_ne_nil mark text
    rw [← ih] at parts
    rw [splitOn, List.splitOn_cons_eq_if_modifyHead, ← ih]
    by_cases h : b = mark
    · simp [h]
    · rw [if_neg h]
      split
      · next none => exact absurd none parts
      · next part parts' split => simp [h, split]

theorem join_eq (separator : Bytes) (texts : List Bytes) :
    join separator texts = separator.intercalate texts := by
  fun_induction join separator texts with
  | case1 => rfl
  | case2 text => simp
  | case3 text next rest ih => rw [List.intercalate_cons_cons, ih]

/-- What stands in a joined text stands in one of the texts or in the separator. -/
theorem mem_join {separator : Bytes} {texts : List Bytes} {b : UInt8}
    (h : b ∈ join separator texts) : b ∈ separator ∨ ∃ text ∈ texts, b ∈ text := by
  fun_induction join separator texts with
  | case1 => simp at h
  | case2 text => exact .inr ⟨text, List.mem_singleton_self text, h⟩
  | case3 text next rest ih =>
    simp only [List.mem_append] at h
    rcases h with (h | h) | h
    · exact .inr ⟨text, List.mem_cons_self, h⟩
    · exact .inl h
    · obtain h | ⟨text', ht, h⟩ := ih h
      · exact .inl h
      · exact .inr ⟨text', List.mem_cons_of_mem text ht, h⟩

/-- The parts of a text make up the text. -/
theorem join_splitOn (mark : UInt8) (text : Bytes) : join [mark] (splitOn mark text) = text := by
  rw [join_eq, splitOn_eq, List.intercalate_splitOn]

theorem splitOn_ne_nil (mark : UInt8) (text : Bytes) : splitOn mark text ≠ [] := by
  rw [splitOn_eq]
  exact List.splitOn_ne_nil mark text

theorem splitOn_of_not_mem {mark : UInt8} {text : Bytes} (h : mark ∉ text) :
    splitOn mark text = [text] := by
  induction text with
  | nil => rfl
  | cons b text ih =>
    rw [List.mem_cons, not_or] at h
    rw [splitOn, if_neg (Ne.symm h.1), ih h.2]

/-- The parts on both sides of a mark. -/
theorem splitOn_append_mark (mark : UInt8) (text more : Bytes) :
    splitOn mark (text ++ mark :: more) = splitOn mark text ++ splitOn mark more := by
  induction text with
  | nil => simp [splitOn]
  | cons b text ih =>
    rw [List.cons_append, splitOn, splitOn, ih]
    split
    · rfl
    · cases h : splitOn mark text with
      | nil => exact absurd h (splitOn_ne_nil mark text)
      | cons part parts => rfl

/-- What is written behind a text without a mark in it joins the last part. -/
theorem exists_splitOn_append {mark : UInt8} (text : Bytes) {more : Bytes} (h : mark ∉ more) :
    ∃ parts last, splitOn mark (text ++ more) = parts ++ [last ++ more] := by
  induction text with
  | nil => exact ⟨[], [], by simp [splitOn_of_not_mem h]⟩
  | cons b text ih =>
    obtain ⟨parts, last, hs⟩ := ih
    rw [List.cons_append, splitOn, hs]
    split
    · exact ⟨[] :: parts, last, rfl⟩
    · cases parts with
      | nil => exact ⟨[], b :: last, rfl⟩
      | cons part parts => exact ⟨(b :: part) :: parts, last, rfl⟩

/-- The mark stands between the parts only. -/
theorem not_mem_of_mem_splitOn {mark : UInt8} {text part : Bytes} (h : part ∈ splitOn mark text) :
    mark ∉ part := by
  induction text generalizing part with
  | nil => simp_all [splitOn]
  | cons b text ih =>
    rw [splitOn] at h
    split at h
    · rcases List.mem_cons.mp h with rfl | h
      · simp
      · exact ih h
    · next hb =>
      split at h
      · next none => exact absurd none (splitOn_ne_nil mark text)
      · next first parts split =>
        rw [split] at ih
        rcases List.mem_cons.mp h with rfl | h
        · simpa [Ne.symm hb] using ih List.mem_cons_self
        · exact ih (List.mem_cons_of_mem first h)

theorem ofLines_eq_join {lines : List Bytes} (h : lines ≠ []) :
    ofLines lines = join [10] lines ++ [10] := by
  induction lines with
  | nil => exact absurd rfl h
  | cons line lines ih =>
    cases lines with
    | nil => simp [ofLines, join]
    | cons next lines =>
      rw [join, ofLines, List.flatMap_cons, ← ofLines, ih (by simp)]
      simp

/-- Lines without line feeds are as many as the line feeds that end them. -/
theorem count_ofLines {lines : List Bytes} (h : ∀ line ∈ lines, 10 ∉ line) :
    (ofLines lines).count 10 = lines.length := by
  induction lines with
  | nil => rfl
  | cons line lines ih =>
    have := List.count_eq_zero.mpr (h line List.mem_cons_self)
    rw [ofLines, List.flatMap_cons, ← ofLines, List.count_append, List.count_append,
      ih fun l hl ↦ h l (List.mem_cons_of_mem line hl), this]
    simp [Nat.add_comm]

theorem ofLines_splitOn (text : Bytes) : ofLines (splitOn 10 text) = text ++ [10] := by
  rw [ofLines_eq_join (splitOn_ne_nil 10 text), join_splitOn]

/-- Lines that are written one below the other are cut apart again, and so are the lines within
them. -/
theorem splitOn_ofLines (lines : List Bytes) :
    splitOn 10 (ofLines lines) = lines.flatMap (splitOn 10) ++ [[]] := by
  induction lines with
  | nil => rfl
  | cons line lines ih =>
    rw [ofLines, List.flatMap_cons, ← ofLines, List.append_assoc, List.singleton_append,
      splitOn_append_mark, ih, List.flatMap_cons, List.append_assoc]

theorem length_splitOn (text : Bytes) : (splitOn 10 text).length = text.count 10 + 1 := by
  rw [← count_ofLines fun _ ↦ not_mem_of_mem_splitOn, ofLines_splitOn]
  simp

/-- The glyphs of line `k`, counted from zero; below the text there are none. -/
def lineAt (text : Bytes) (k : Nat) : List Glyph :=
  ((text.splitOn 10).getD k []).glyphs

/-- What stands before glyph `i` of line `k`. -/
def before (text : Bytes) (k i : Nat) : Bytes :=
  ofLines ((text.splitOn 10).take k) ++ ofGlyphs ((text.lineAt k).take i)

end Bytes

/-- There is no line feed in a line. -/
theorem not_mem_getD_splitOn (text : Bytes) (k : Nat) : 10 ∉ (text.splitOn 10).getD k [] := by
  rw [List.getD_eq_getElem?_getD]
  cases h : (text.splitOn 10)[k]? with
  | none => simp
  | some line => exact Bytes.not_mem_of_mem_splitOn (List.mem_of_getElem? h)

/-! ### Positions -/

section Positions

variable {α β : Type} {f : α → List β} {l : List α}

/-- An element of joined lists is an element of one of them, behind those before it. -/
theorem exists_of_getElem?_flatMap {p : Nat} {b : β} (h : (l.flatMap f)[p]? = some b) :
    ∃ m a q, l[m]? = some a ∧ (f a)[q]? = some b ∧ p = ((l.take m).flatMap f).length + q := by
  induction l generalizing p with
  | nil => simp at h
  | cons a l ih =>
    rw [List.flatMap_cons] at h
    by_cases hp : p < (f a).length
    · rw [List.getElem?_append_left hp] at h
      exact ⟨0, a, p, rfl, h, by simp⟩
    · rw [List.getElem?_append_right (Nat.le_of_not_lt hp)] at h
      obtain ⟨m, a', q, hm, hq, eq⟩ := ih h
      refine ⟨m + 1, a', q, by simpa using hm, hq, ?_⟩
      rw [List.take_succ_cons, List.flatMap_cons, List.length_append]
      omega

theorem flatMap_take_succ {m : Nat} {a : α} (h : l[m]? = some a) :
    (l.take (m + 1)).flatMap f = (l.take m).flatMap f ++ f a := by
  rw [List.take_add_one, h, List.flatMap_append]
  simp

theorem isPrefix_flatMap_take {m m' : Nat} (h : m ≤ m') :
    (l.take m).flatMap f <+: (l.take m').flatMap f := by
  obtain ⟨d, rfl⟩ := Nat.exists_eq_add_of_le h
  rw [List.take_add, List.flatMap_append]
  exact List.prefix_append ..

end Positions

section Before

variable {text : Bytes} {k i j : Nat}

/-- What stands before a place further right in the line. -/
theorem before_of_le (text : Bytes) (k : Nat) (h : i ≤ j) : text.before k j =
    text.before k i ++ Bytes.ofGlyphs (((text.lineAt k).drop i).take (j - i)) := by
  obtain ⟨d, rfl⟩ := Nat.exists_eq_add_of_le h
  rw [Bytes.before, Bytes.before, List.take_add, Nat.add_sub_cancel_left, List.append_assoc,
    Bytes.ofGlyphs, Bytes.ofGlyphs, Bytes.ofGlyphs, List.flatMap_append]

theorem length_before_mono (text : Bytes) (k : Nat) (h : i ≤ j) :
    (text.before k i).length ≤ (text.before k j).length := by
  rw [before_of_le text k h, List.length_append]
  omega

/-- The glyphs of a line spell it, so some of them spell its beginning. -/
theorem isPrefix_ofGlyphs_take (text : Bytes) (k i : Nat) :
    Bytes.ofGlyphs ((text.lineAt k).take i) <+: (text.splitOn 10).getD k [] := by
  refine ⟨Bytes.ofGlyphs ((text.lineAt k).drop i), ?_⟩
  rw [Bytes.ofGlyphs, Bytes.ofGlyphs, ← List.flatMap_append, List.take_append_drop]
  exact Bytes.ofGlyphs_glyphs _

/-- What stands before a place in a line stands before the lines below. -/
theorem before_prefix_ofLines (text : Bytes) (k i : Nat) :
    text.before k i <+: Bytes.ofLines ((text.splitOn 10).take (k + 1)) := by
  have spelled := isPrefix_ofGlyphs_take text k i
  rw [Bytes.before, Bytes.ofLines, Bytes.ofLines]
  cases hl : (text.splitOn 10)[k]? with
  | none =>
    have le := List.getElem?_eq_none_iff.mp hl
    rw [List.getD_eq_default _ _ le, List.prefix_nil] at spelled
    rw [spelled, List.append_nil]
    exact isPrefix_flatMap_take (Nat.le_succ k)
  | some line =>
    rw [flatMap_take_succ hl, List.prefix_append_right_inj]
    rw [List.getD_eq_getElem?_getD, hl] at spelled
    exact spelled.trans (List.prefix_append ..)

theorem length_before_le (text : Bytes) (i j : Nat) {k' : Nat} (h : k < k') :
    (text.before k i).length ≤ (text.before k' j).length := by
  have below : Bytes.ofLines ((text.splitOn 10).take (k + 1)) <+: text.before k' j :=
    (isPrefix_flatMap_take h).trans (List.prefix_append ..)
  exact ((before_prefix_ofLines text k i).trans below).length_le

theorem count_before (h : k ≤ (text.splitOn 10).length) : (text.before k i).count 10 = k := by
  have unfed : 10 ∉ Bytes.ofGlyphs ((text.lineAt k).take i) := fun mem ↦
    not_mem_getD_splitOn text k ((isPrefix_ofGlyphs_take text k i).subset mem)
  rw [Bytes.before, List.count_append, List.count_eq_zero.mpr unfed, Bytes.count_ofLines,
    List.length_take]
  · omega
  · intro line hl
    exact Bytes.not_mem_of_mem_splitOn (List.mem_of_mem_take hl)

/-- What stands before a place of a text is the beginning of the text. -/
theorem before_prefix_text (h : k < (text.splitOn 10).length) : text.before k i <+: text := by
  have all : text.before k i <+: text ++ [10] := by
    rw [← Bytes.ofLines_splitOn]
    refine (before_prefix_ofLines text k i).trans ?_
    conv_rhs => rw [← List.take_length (l := text.splitOn 10)]
    exact isPrefix_flatMap_take h
  rcases List.prefix_concat_iff.mp all with eq | proper
  · have := congrArg (List.count 10) eq
    rw [count_before h.le, List.count_append, Bytes.length_splitOn] at *
    simp at this
    omega
  · exact proper

/-- What stands before the end of the last line is the whole text. -/
theorem before_end (text : Bytes) :
    text.before (text.count 10) (text.lineAt (text.count 10)).length = text := by
  have hl := Bytes.length_splitOn text
  have last := List.getElem?_eq_getElem (show text.count 10 < (text.splitOn 10).length by omega)
  have whole := flatMap_take_succ (f := fun line : Bytes ↦ line ++ [10]) last
  rw [List.take_of_length_le hl.le, ← Bytes.ofLines, ← Bytes.ofLines, Bytes.ofLines_splitOn,
    ← List.append_assoc] at whole
  rw [Bytes.before, List.take_length, Bytes.lineAt, Bytes.ofGlyphs_glyphs,
    List.getD_eq_getElem?_getD, last]
  exact (List.append_cancel_right whole).symm

end Before

end BitCalculus
