import Mathlib
import BitCalculus.Graph.Printer
import BitCalculus.Proofs.Graph.Nodes

/-!
# Printing under a limit

A limit is looked at only when a node is entered, and what belongs to an entered node is always
finished: separators and closing parentheses follow even behind the limit. So a text that fits is
printed whole, of a longer one as many bytes are right as the limit says, and what stands behind
them is bounded by the applications that were open, however large the unfolded expression is. A
longer text is printed up to the limit and not a byte further exactly if it is cut between the heads
of its outermost abstractions and what stands below them.
-/

namespace BitCalculus

namespace Bytes

/-! ### Texts as far as a limit asks for them -/

/-- `shown` is `whole` as far as a limit asks for it: it is all of it, or the limit falls short of
the whole and at least as many bytes are shown, of which so many are right. -/
def ShowsUpTo (limit : Nat) (shown whole : Bytes) : Prop :=
  shown = whole ∨
    limit < whole.length ∧ limit ≤ shown.length ∧ shown.take limit = whole.take limit

variable {limit : Nat} {shown whole : Bytes}

/-- The same bytes may follow on both sides. -/
theorem ShowsUpTo.append (h : ShowsUpTo limit shown whole) (more : Bytes) :
    ShowsUpTo limit (shown ++ more) (whole ++ more) := by
  rcases h with rfl | ⟨long, enough, same⟩
  · exact .inl rfl
  · refine .inr ⟨?_, ?_, ?_⟩
    · rw [List.length_append]
      omega
    · rw [List.length_append]
      omega
    · rw [List.take_append_of_le_length enough, List.take_append_of_le_length (by omega), same]

theorem ShowsUpTo.push {written : Array UInt8} (h : ShowsUpTo limit written.toList whole)
    (b : UInt8) : ShowsUpTo limit (written.push b).toList (whole ++ [b]) := by
  rw [Array.toList_push]
  exact h.append [b]

/-- Once the limit is reached, what follows need not be shown. -/
theorem ShowsUpTo.skip (h : ShowsUpTo limit shown whole) (enough : limit ≤ shown.length)
    {more : Bytes} (pos : 0 < more.length) : ShowsUpTo limit shown (whole ++ more) := by
  rcases h with rfl | ⟨long, -, same⟩
  · refine .inr ⟨?_, enough, ?_⟩
    · rw [List.length_append]
      omega
    · rw [List.take_append_of_le_length enough]
  · refine .inr ⟨?_, enough, ?_⟩
    · rw [List.length_append]
      omega
    · rw [List.take_append_of_le_length (by omega), same]

end Bytes

namespace Expr

open Bytes (ShowsUpTo)

/-! ### Whole texts -/

/-- What follows a text does not change it. -/
theorem textBefore_eq (e : Expr) (rest : Bytes) : e.textBefore rest = e.text ++ rest := by
  induction e generalizing rest with
  | slot id index => simp [text, textBefore]
  | lambda id captured body reads size ih =>
    rw [text, textBefore, textBefore, ih rest, ih [], List.append_nil, List.append_assoc]
  | apply id function argument reads size ihf iha =>
    rw [text, textBefore, textBefore, ihf, iha, ihf (lit " " ++ _), iha (lit ")" ++ [])]
    simp only [List.append_assoc, List.append_nil]

theorem text_slot (id : Nat) (index : Int) : (slot id index).text = 36 :: Bytes.ofInt index := by
  rw [text, textBefore, List.append_nil]
  rfl

theorem text_lambda (id : Nat) (captured : List Int) (body : Expr) (reads : List Int) (size : Nat) :
    (lambda id captured body reads size).text = header captured ++ body.text := rfl

theorem text_apply (id : Nat) (function argument : Expr) (reads : List Int) (size : Nat) :
    (apply id function argument reads size).text =
      40 :: (function.text ++ 32 :: (argument.text ++ [41])) := by
  rw [text, textBefore, textBefore_eq, textBefore_eq, List.append_nil]
  rfl

/-- No expression is printed as nothing. -/
theorem length_text_pos (e : Expr) : 0 < e.text.length := by
  cases e with
  | slot id index => exact Nat.succ_pos _
  | lambda id captured body reads size => exact Nat.succ_pos _
  | apply id function argument reads size => exact Nat.succ_pos _

/-! ### What is printed is right -/

theorem size_append_bytes (written : Array UInt8) (more : Bytes) :
    (written ++ more).size = written.size + more.length := by
  rw [← Array.length_toList, Array.toList_appendList, List.length_append, Array.length_toList]

/-- No node is entered once the limit is reached. -/
theorem serializeTo_of_le {limit : Nat} {written : Array UInt8} (full : limit ≤ written.size)
    (e : Expr) : serializeTo limit written e = written := by
  cases e <;> simp [serializeTo, full]

/-- Printing goes on as the whole text does. -/
theorem showsUpTo_serializeTo {limit : Nat} {written : Array UInt8} {whole : Bytes}
    (h : ShowsUpTo limit written.toList whole) (e : Expr) :
    ShowsUpTo limit (serializeTo limit written e).toList (whole ++ e.text) := by
  induction e generalizing written whole with
  | slot id index =>
    rw [serializeTo]
    split
    · next full => exact h.skip (by simpa using full) (length_text_pos _)
    · rw [Array.toList_appendList, Array.toList_appendList, List.append_assoc, text_slot]
      exact h.append (lit "$" ++ Bytes.ofInt index)
  | lambda id captured body reads size ih =>
    rw [serializeTo]
    split
    · next full => exact h.skip (by simpa using full) (length_text_pos _)
    · have headed : ShowsUpTo limit (written ++ header captured).toList
          (whole ++ header captured) := by
        rw [Array.toList_appendList]
        exact h.append (header captured)
      rw [text_lambda, ← List.append_assoc]
      exact ih headed
  | apply id function argument reads size ihf iha =>
    rw [serializeTo]
    split
    · next full => exact h.skip (by simpa using full) (length_text_pos _)
    · have closed := (iha ((ihf (h.push 40)).push 32)).push 41
      simpa only [text_apply, List.append_assoc, List.cons_append, List.nil_append] using closed

theorem serialize_natCast (limit : Nat) (e : Expr) :
    e.serialize limit = (serializeTo limit #[] e).toList := by
  rw [serialize, if_neg (by omega), Int.toNat_natCast]

/-- A printed expression is its text as far as the limit asks for it. -/
theorem showsUpTo_serialize (limit : Nat) (e : Expr) :
    ShowsUpTo limit (e.serialize limit) e.text := by
  have start : ShowsUpTo limit (#[] : Array UInt8).toList [] := .inl rfl
  rw [serialize_natCast]
  exact showsUpTo_serializeTo start e

/-- What fits is printed whole. -/
theorem serialize_of_le {limit : Nat} {e : Expr} (fits : e.text.length ≤ limit) :
    e.serialize limit = e.text := by
  rcases showsUpTo_serialize limit e with whole | ⟨long, -⟩
  · exact whole
  · omega

/-- Of what does not fit, as many bytes are right as the limit says. -/
theorem take_serialize_of_lt {limit : Nat} {e : Expr} (long : limit < e.text.length) :
    limit ≤ (e.serialize limit).length ∧
      (e.serialize limit).take limit = e.text.take limit := by
  rcases showsUpTo_serialize limit e with whole | ⟨-, enough, same⟩
  · rw [whole]
    exact ⟨Nat.le_of_lt long, rfl⟩
  · exact ⟨enough, same⟩

/-! ### How much is printed -/

/-- The length of the longest slot or head of an abstraction in the text of an expression. -/
def longestPiece : Expr → Nat
  | slot _ index => (lit "$" ++ Bytes.ofInt index).length
  | lambda _ captured body _ _ => max (header captured).length body.longestPiece
  | apply _ function argument _ _ => max function.longestPiece argument.longestPiece

theorem size_le_size_serializeTo (limit : Nat) (written : Array UInt8) (e : Expr) :
    written.size ≤ (serializeTo limit written e).size := by
  induction e generalizing written with
  | slot id index =>
    rw [serializeTo]
    split
    · exact Nat.le_refl _
    · rw [size_append_bytes, size_append_bytes]
      omega
  | lambda id captured body reads size ih =>
    rw [serializeTo]
    split
    · exact Nat.le_refl _
    · have := ih (written ++ header captured)
      rw [size_append_bytes] at this
      omega
  | apply id function argument reads size ihf iha =>
    rw [serializeTo]
    split
    · exact Nat.le_refl _
    · have first := ihf (written.push 40)
      have second := iha ((serializeTo limit (written.push 40) function).push 32)
      simp only [Array.size_push] at first second ⊢
      omega

/-- Every byte below the limit opens at most one application, and an open application costs two more
bytes; only one piece may reach over the limit. -/
theorem size_serializeTo_le {limit : Nat} {written : Array UInt8} (below : written.size < limit)
    (e : Expr) :
    (serializeTo limit written e).size + 2 * written.size ≤ 3 * limit + e.longestPiece := by
  induction e generalizing written with
  | slot id index =>
    rw [serializeTo, if_neg (by omega), size_append_bytes, size_append_bytes, longestPiece,
      List.length_append]
    omega
  | lambda id captured body reads size ih =>
    rw [serializeTo, if_neg (by omega)]
    have grown := size_append_bytes written (header captured)
    simp only [longestPiece]
    by_cases full : limit ≤ (written ++ header captured).size
    · rw [serializeTo_of_le full]
      omega
    · have := ih (Nat.not_le.mp full)
      omega
  | apply id function argument reads size ihf iha =>
    rw [serializeTo, if_neg (by omega)]
    have opened : (written.push 40).size = written.size + 1 := by simp
    have grown := size_le_size_serializeTo limit (written.push 40) function
    simp only [longestPiece]
    generalize hf : serializeTo limit (written.push 40) function = first at grown
    have between : (first.push 32).size = first.size + 1 := by simp
    simp only [Array.size_push]
    -- Whether the argument is entered, and if not, whether the function was.
    by_cases entered : (first.push 32).size < limit
    · have := iha entered
      omega
    · rw [serializeTo_of_le (by omega)]
      by_cases inside : (written.push 40).size < limit
      · have := ihf inside
        rw [hf] at this
        omega
      · rw [serializeTo_of_le (by omega)] at hf
        rw [← hf] at between ⊢
        omega

theorem length_serialize_le (limit : Nat) (e : Expr) :
    (e.serialize limit).length ≤ 3 * limit + e.longestPiece := by
  rw [serialize_natCast, Array.length_toList]
  by_cases pos : 0 < limit
  · have start : (#[] : Array UInt8).size < limit := pos
    simpa using size_serializeTo_le start e
  · rw [serializeTo_of_le (by simp; omega)]
    simp

/-! ### Where printing stops -/

/-- The heads of the outermost abstractions of an expression, or of some of them, have exactly so
many bytes together: the text may be cut there, between a head and the body below it. -/
def HeadsEndAt : Nat → Expr → Prop
  | n, lambda _ captured body _ _ =>
    (header captured).length = n ∨
      (header captured).length < n ∧ body.HeadsEndAt (n - (header captured).length)
  | _, _ => False

/-- Under a limit that is not enough, exactly as many bytes as it says are printed just if it falls
behind the head of one of the outermost abstractions: any open application would write more. -/
theorem size_serializeTo_eq_iff {limit : Nat} {written : Array UInt8}
    (below : written.size < limit) {e : Expr} (long : limit < written.size + e.text.length) :
    (serializeTo limit written e).size = limit ↔ e.HeadsEndAt (limit - written.size) := by
  induction e generalizing written with
  | slot id index =>
    rw [serializeTo, if_neg (by omega), size_append_bytes, size_append_bytes]
    rw [text_slot, List.length_cons] at long
    have dollar : (lit "$").length = 1 := rfl
    simp only [HeadsEndAt, iff_false]
    omega
  | lambda id captured body reads size ih =>
    rw [serializeTo, if_neg (by omega)]
    have grown := size_append_bytes written (header captured)
    rw [text_lambda, List.length_append] at long
    simp only [HeadsEndAt]
    by_cases full : limit ≤ (written ++ header captured).size
    · rw [serializeTo_of_le full]
      omega
    · rw [ih (by omega) (by omega), grown, Nat.sub_sub]
      constructor
      · exact fun h ↦ .inr ⟨by omega, h⟩
      · exact fun h ↦ (h.resolve_left (by omega)).2
  | apply id function argument reads size ihf iha =>
    -- All but the closing parenthesis is printed whole or reaches the limit already.
    have start : ShowsUpTo limit written.toList written.toList := .inl rfl
    have shows := showsUpTo_serializeTo
      ((showsUpTo_serializeTo (start.push 40) function).push 32) argument
    rw [serializeTo, if_neg (by omega), Array.size_push]
    simp only [HeadsEndAt, iff_false]
    rcases shows with whole | ⟨-, enough, -⟩
    · have := congrArg List.length whole
      simp only [text_apply, List.length_append, List.length_cons, List.length_nil,
        Array.length_toList] at this long
      omega
    · rw [Array.length_toList] at enough
      omega

/-- When exactly as many bytes are printed as a limit says, although there are more. -/
theorem length_serialize_eq_iff {limit : Nat} (pos : 0 < limit) {e : Expr}
    (long : limit < e.text.length) : (e.serialize limit).length = limit ↔ e.HeadsEndAt limit := by
  rw [serialize_natCast, Array.length_toList]
  have start : (#[] : Array UInt8).size < limit := pos
  exact size_serializeTo_eq_iff start (by simpa using long)

end Expr

/-! ### Bounded printing -/

/-- A text that fits under a limit is printed whole; of a longer one at least as many bytes are
printed, and so many are those of the text. At most three times the limit is printed, and the
longest slot or head of an abstraction on top. -/
theorem printing_under_limit (e : Expr) (limit : Nat) :
    (e.text.length ≤ limit → e.serialize limit = e.text) ∧
      (limit < e.text.length → limit ≤ (e.serialize limit).length ∧
        (e.serialize limit).take limit = e.text.take limit) ∧
      (e.serialize limit).length ≤ 3 * limit + e.longestPiece :=
  ⟨Expr.serialize_of_le, Expr.take_serialize_of_lt, Expr.length_serialize_le limit e⟩

/-- Applying a node to itself again and again gives a graph of few nodes and a text that doubles
each time. -/
theorem Arena.exists_doubled (k : Nat) :
    ∃ (a : Arena) (e : Expr), a.Built (fun _ ↦ True) ∧ e ∈ a.graph.nodes ∧
      a.graph.size ≤ k + 1 ∧ 2 ^ k ≤ e.text.length ∧ e.longestPiece = 2 := by
  induction k with
  | zero =>
    have made := (made_slot (wellFormed_empty (fun _ ↦ True) 0) 0).1
    exact ⟨_, _, .slot (.empty 0) 0, made.mem, by cbv, by cbv, by cbv⟩
  | succ k ih =>
    obtain ⟨a, e, built, mem, few, long, piece⟩ := ih
    obtain ⟨id, reads, size, content⟩ := apply_content built.wellFormed mem mem
    refine ⟨_, _, .apply built mem mem, (made_apply built.wellFormed mem mem).1.mem, ?_, ?_, ?_⟩
    · rcases makes_apply a mem mem with same | ⟨pushed, -⟩
      · rw [same]
        omega
      · rw [Graph.size, pushed, Array.size_push]
        exact Nat.succ_le_succ few
    · rw [content, Expr.text_apply]
      simp only [List.length_cons, List.length_append]
      omega
    · rw [content, Expr.longestPiece, piece]
      rfl

/-- Of an expression with more than 2 ^ 40 bytes, in a graph of at most 41 nodes, a limit of 20
prints at least 20 and at most 62 bytes. -/
theorem printing_under_limit_doubled :
    ∃ (a : Arena) (e : Expr), a.Built (fun _ ↦ True) ∧ e ∈ a.graph.nodes ∧ a.graph.size ≤ 41 ∧
      2 ^ 40 ≤ e.text.length ∧ 20 ≤ (e.serialize 20).length ∧ (e.serialize 20).length ≤ 62 ∧
      (e.serialize 20).take 20 = e.text.take 20 := by
  obtain ⟨a, e, built, mem, few, long, piece⟩ := Arena.exists_doubled 40
  obtain ⟨-, cut, bound⟩ := printing_under_limit e 20
  obtain ⟨enough, same⟩ := cut (by omega)
  rw [piece] at bound
  exact ⟨a, e, built, mem, few, long, enough, bound, same⟩

end BitCalculus
