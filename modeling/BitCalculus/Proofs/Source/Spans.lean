import Mathlib
import BitCalculus.Proofs.Source.Lexemes
import BitCalculus.Proofs.Text.Lines

/-!
# The tokens of a text, line by line

A text is cut at its line feeds, and the lines that begin with `#` are comments. The tokens are the
reserved glyphs of the other lines and their maximal runs of glyphs that may be part of a name.
Nothing in this description is about how a text is read, yet it says which tokens there are, in
which order and where. It leaves nothing out either: every byte is a line feed, part of a comment,
white space or part of one token.
-/

namespace BitCalculus

/-! ### What a line holds -/

/-- Whether a line is a comment. -/
def isComment (row : List Glyph) : Bool :=
  row.head?.any fun g ↦ g.is '#'

/-- Whether glyph `i` of a line may be part of a name. -/
def partAt (row : List Glyph) (i : Nat) : Bool :=
  row[i]?.any Glyph.isNamePart

/-- The tokens of a line that is no comment, each from one glyph up to another: the reserved glyphs,
and the runs of glyphs of names that go on neither to the left nor to the right. -/
inductive Holds (row : List Glyph) : Nat → Nat → TokenKind → Prop
  | reserved {i : Nat} {g : Glyph} {kind : TokenKind} (here : row[i]? = some g)
      (is : g.reservedKind? = some kind) : Holds row i (i + 1) kind
  | name {i j : Nat} (nonempty : i < j) (inside : ∀ m, i ≤ m → m < j → partAt row m = true)
      (starts : ∀ m, m + 1 = i → partAt row m = false) (stops : partAt row j = false) :
      Holds row i j .name

section Holds

variable {row : List Glyph} {i j i' j' : Nat} {kind kind' : TokenKind}

theorem partAt_of_reserved {g : Glyph} (here : row[i]? = some g)
    (reserved : g.reservedKind? = some kind) : partAt row i = false := by
  simp [partAt, here, Glyph.isNamePart, reserved]

theorem partAt_of_isSpace {g : Glyph} (here : row[i]? = some g) (space : g.isSpace = true) :
    partAt row i = false := by
  simp [partAt, here, Glyph.isNamePart, space]

theorem lt_length_of_partAt (h : partAt row i = true) : i < row.length := by
  by_contra out
  simp [partAt, List.getElem?_eq_none (Nat.le_of_not_lt out)] at h

theorem Holds.lt (h : Holds row i j kind) : i < j := by
  cases h with
  | reserved here is => exact Nat.lt_succ_self i
  | name nonempty inside starts stops => exact nonempty

theorem Holds.le_length (h : Holds row i j kind) : j ≤ row.length := by
  cases h with
  | reserved here is => exact (List.getElem?_eq_some_iff.mp here).1
  | name nonempty inside starts stops =>
    have := lt_length_of_partAt (inside (j - 1) (by omega) (by omega))
    omega

theorem Holds.kind_ne (h : Holds row i j kind) : kind ≠ .endOfText := by
  cases h with
  | reserved here is => exact Glyph.reservedKind?_ne_endOfText is
  | name nonempty inside starts stops => simp

/-- No token of a line begins inside another one. -/
theorem Holds.eq_of_overlap (h : Holds row i j kind) (h' : Holds row i' j' kind') (le : i ≤ i')
    (lt : i' < j) : i = i' ∧ j = j' ∧ kind = kind' := by
  cases h with
  | reserved here is =>
    obtain rfl : i = i' := by omega
    cases h' with
    | reserved here' is' => simp_all
    | name nonempty inside starts stops =>
      simpa [partAt_of_reserved here is] using inside i (Nat.le_refl i) nonempty
  | name nonempty inside starts stops =>
    cases h' with
    | reserved here' is' => simpa [partAt_of_reserved here' is'] using inside i' le lt
    | name nonempty' inside' starts' stops' =>
      have same : i = i' := by
        by_contra ne
        have := inside (i' - 1) (by omega) (by omega)
        rw [starts' (i' - 1) (by omega)] at this
        cases this
      subst same
      refine ⟨rfl, ?_, rfl⟩
      rcases Nat.lt_trichotomy j j' with less | equal | more
      · rw [inside' j (by omega) less] at stops
        cases stops
      · exact equal
      · rw [inside j' (by omega) more] at stops'
        cases stops'

theorem not_holds_of_isSpace {g : Glyph} (here : row[i]? = some g) (space : g.isSpace = true) :
    ¬ Holds row i j kind := by
  intro h
  cases h with
  | reserved here' is =>
    rw [here, Option.some.injEq] at here'
    subst here'
    rw [Glyph.isSpace_eq_false_of_reservedKind? is] at space
    cases space
  | name nonempty inside starts stops =>
    simpa [partAt_of_isSpace here space] using inside i (Nat.le_refl i) nonempty

/-- Every glyph of a name is in a run that goes on neither to the left nor to the right. -/
theorem exists_run (part : partAt row i = true) :
    ∃ first stop, Holds row first stop .name ∧ first ≤ i ∧ i < stop := by
  -- The run begins at the least place from which on all glyphs up to this one are parts of a name,
  -- and it ends at the first place behind that is none.
  have alone : ∀ m, i ≤ m → m ≤ i → partAt row m = true := by
    intro m le le'
    rwa [Nat.le_antisymm le' le]
  have left : ∃ first, ∀ m, first ≤ m → m ≤ i → partAt row m = true := ⟨i, alone⟩
  have right : ∃ stop, i ≤ stop ∧ partAt row stop = false :=
    ⟨row.length, (lt_length_of_partAt part).le, by simp [partAt]⟩
  have inside := Nat.find_spec left
  have first_le : Nat.find left ≤ i := Nat.find_min' left alone
  obtain ⟨le_stop, stops⟩ := Nat.find_spec right
  have lt_stop : i < Nat.find right := by
    refine Nat.lt_of_le_of_ne le_stop fun same ↦ ?_
    rw [← same, part] at stops
    cases stops
  refine ⟨Nat.find left, Nat.find right, .name (by omega) ?_ ?_ stops, first_le, lt_stop⟩
  · intro m le lt
    by_cases h : m ≤ i
    · exact inside m le h
    · have := Nat.find_min right lt
      simp only [not_and, Bool.not_eq_false] at this
      exact this (by omega)
  · intro m next
    by_contra part'
    rw [Bool.not_eq_false] at part'
    refine Nat.find_min left (m := m) (by omega) fun m' le le' ↦ ?_
    by_cases h : m' = m
    · rwa [h]
    · exact inside m' (by omega) le'

/-- Every glyph of a line is white space or part of a token. -/
theorem isSpace_or_exists_holds {g : Glyph} (here : row[i]? = some g) :
    g.isSpace = true ∨ ∃ first stop kind, Holds row first stop kind ∧ first ≤ i ∧ i < stop := by
  by_cases space : g.isSpace = true
  · exact .inl space
  · right
    cases reserved : g.reservedKind? with
    | some kind =>
      exact ⟨i, i + 1, kind, .reserved here reserved, Nat.le_refl i, Nat.lt_succ_self i⟩
    | none =>
      have part : partAt row i = true := by
        simp [partAt, here, Glyph.isNamePart, space, reserved]
      obtain ⟨first, stop, holds⟩ := exists_run part
      exact ⟨first, stop, .name, holds⟩

end Holds

section Drop

variable {α : Type} {l rest : List α} {n : Nat} {a : α}

theorem getElem?_of_drop (h : l.drop n = a :: rest) : l[n]? = some a := by
  rw [← Nat.add_zero n, ← List.getElem?_drop, h]
  rfl

theorem drop_succ_of_drop (h : l.drop n = a :: rest) : l.drop (n + 1) = rest := by
  rw [← List.drop_drop, h]
  rfl

end Drop

section Run

variable {row run tail : List Glyph} {n : Nat}

theorem partAt_stop (here : row.drop n = run ++ tail.dropWhile Glyph.isNamePart) :
    partAt row (n + run.length) = false := by
  have stop := List.head?_dropWhile_not Glyph.isNamePart tail
  rw [partAt, ← List.getElem?_drop, here, List.getElem?_append_right (Nat.le_refl _), Nat.sub_self,
    ← List.head?_eq_getElem?]
  cases head : (tail.dropWhile Glyph.isNamePart).head? with
  | none => rfl
  | some g => simpa [head] using stop

/-- Glyphs of names up to the first glyph that is none are a name. -/
theorem holds_run (here : row.drop n = run ++ tail.dropWhile Glyph.isNamePart)
    (nonempty : 0 < run.length) (parts : ∀ g ∈ run, g.isNamePart = true)
    (starts : ∀ m, m + 1 = n → partAt row m = false) : Holds row n (n + run.length) .name := by
  refine .name (by omega) ?_ starts (partAt_stop here)
  intro m le lt
  obtain ⟨i, rfl⟩ := Nat.exists_eq_add_of_le le
  have hi : i < run.length := by omega
  rw [partAt, ← List.getElem?_drop, here, List.getElem?_append_left hi,
    List.getElem?_eq_getElem hi, Option.any_some]
  exact parts _ (List.getElem_mem hi)

end Run

/-! ### Spans -/

/-- The place below `k` lines and to the right of `i` glyphs. -/
def placeAt (source : Bytes) (k i : Nat) : Location := ⟨source, 1 + k, 1 + i⟩

/-- A stretch of a line that is a token: it reaches from glyph `first` up to glyph `stop`. Lines and
glyphs count from zero here. -/
structure Span where
  line : Nat
  first : Nat
  stop : Nat
  kind : TokenKind

namespace Span

/-- The stretch is a token of the text: its line is no comment and holds it. -/
structure IsToken (text : Bytes) (s : Span) : Prop where
  code : isComment (text.lineAt s.line) = false
  holds : Holds (text.lineAt s.line) s.first s.stop s.kind

/-- The bytes of a stretch. -/
def bytes (text : Bytes) (s : Span) : Bytes :=
  .ofGlyphs (((text.lineAt s.line).drop s.first).take (s.stop - s.first))

/-- The token that a stretch is. -/
def token (source text : Bytes) (s : Span) : Token :=
  ⟨s.kind, s.bytes text, placeAt source s.line s.first⟩

/-- One stretch ends before the other begins. -/
def Before (s s' : Span) : Prop :=
  s.line < s'.line ∨ s.line = s'.line ∧ s.stop ≤ s'.first

/-- The stretches are those with the given property, in the order of the text. -/
structure Listed (p : Span → Prop) (spans : List Span) : Prop where
  ordered : spans.Pairwise Before
  mem_iff : ∀ s, s ∈ spans ↔ p s

namespace Listed

variable {p q : Span → Prop} {spans spans' : List Span}

theorem nil (h : ∀ s, ¬ p s) : Listed p [] :=
  ⟨.nil, by simpa using h⟩

theorem congr (h : Listed p spans) (same : ∀ s, p s ↔ q s) : Listed q spans :=
  ⟨h.ordered, fun s ↦ (h.mem_iff s).trans (same s)⟩

theorem append (h : Listed p spans) (h' : Listed q spans')
    (before : ∀ s s', p s → q s' → s.Before s') :
    Listed (fun s ↦ p s ∨ q s) (spans ++ spans') := by
  constructor
  · rw [List.pairwise_append]
    refine ⟨h.ordered, h'.ordered, fun s hs s' hs' ↦ ?_⟩
    exact before s s' ((h.mem_iff s).mp hs) ((h'.mem_iff s').mp hs')
  · intro s
    rw [List.mem_append, h.mem_iff, h'.mem_iff]

end Listed

end Span

/-! ### Reading a line -/

section Reading

variable {text : Bytes} {k n : Nat}

/-- The tokens of line `k` from glyph `n` on. -/
def Span.InLine (text : Bytes) (k n : Nat) (s : Span) : Prop :=
  s.line = k ∧ n ≤ s.first ∧ Holds (text.lineAt k) s.first s.stop s.kind

/-- The token at glyph `n`, and those behind it. -/
theorem listed_cons {stop : Nat} {kind : TokenKind} (h : Holds (text.lineAt k) n stop kind)
    {spans : List Span} (rest : Span.Listed (Span.InLine text k stop) spans) :
    Span.Listed (Span.InLine text k n) (⟨k, n, stop, kind⟩ :: spans) := by
  have one : Span.Listed (· = ⟨k, n, stop, kind⟩) [⟨k, n, stop, kind⟩] :=
    ⟨List.pairwise_singleton .., fun s ↦ List.mem_singleton⟩
  refine (one.append rest ?_).congr ?_
  · rintro s s' rfl ⟨line, le, -⟩
    exact .inr ⟨line.symm, le⟩
  · intro s
    constructor
    · rintro (rfl | ⟨line, le, holds⟩)
      · exact ⟨rfl, Nat.le_refl n, h⟩
      · exact ⟨line, h.lt.le.trans le, holds⟩
    · rintro ⟨line, le, holds⟩
      by_cases lt : s.first < stop
      · obtain ⟨first, stop', kind'⟩ := h.eq_of_overlap holds le lt
        left
        cases s
        simp_all
      · exact .inr ⟨line, Nat.le_of_not_lt lt, holds⟩

theorem listed_skip {g : Glyph} (here : (text.lineAt k)[n]? = some g) (space : g.isSpace = true)
    {spans : List Span} (rest : Span.Listed (Span.InLine text k (n + 1)) spans) :
    Span.Listed (Span.InLine text k n) spans := by
  refine rest.congr fun s ↦ ⟨?_, ?_⟩
  · rintro ⟨line, le, holds⟩
    exact ⟨line, by omega, holds⟩
  · rintro ⟨line, le, holds⟩
    refine ⟨line, ?_, holds⟩
    by_contra lt
    obtain rfl : n = s.first := by omega
    exact not_holds_of_isSpace here space holds

/-- The end of a text behind line `k`. -/
def endToken (source text : Bytes) (k : Nat) : Token :=
  ⟨.endOfText, [], placeAt source k (text.lineAt k).length⟩

/-- A line that is no comment is read from glyph `n` on, where no name has begun before. -/
theorem exists_spans_drop (source : Bytes) (unfed : ∀ g ∈ text.lineAt k, g.is '\n' = false)
    (code : isComment (text.lineAt k) = false) {line : Nat} (hl : line = k + 1) {gs : List Glyph}
    (hn : n ≤ (text.lineAt k).length) (hg : (text.lineAt k).drop n = gs)
    (fresh : ∀ m, m + 1 = n → partAt (text.lineAt k) n = true → partAt (text.lineAt k) m = false) :
    ∃ spans, Source.scan source line n gs =
        spans.map (Span.token source text) ++ [endToken source text k] ∧
      Span.Listed (Span.InLine text k n) spans := by
  -- `fresh` is what the induction needs besides the position: reading never goes on inside a run, so
  -- a run that is found cannot be longer to the left.
  fun_induction Source.scan source line n gs with
  | case1 line n =>
    have := List.drop_eq_nil_iff.mp hg
    refine ⟨[], ?_, .nil ?_⟩
    · obtain rfl : n = (text.lineAt k).length := by omega
      simp [endToken, placeAt, hl, Int.add_comm]
    · rintro s ⟨-, le, holds⟩
      have := holds.lt
      have := holds.le_length
      omega
  | case2 line n g rest newline ih =>
    have mem : g ∈ text.lineAt k := List.mem_of_mem_drop (hg ▸ List.mem_cons_self)
    simp [unfed g mem] at newline
  | case3 line n g rest newline first comment ih =>
    obtain ⟨rfl, hash⟩ := first
    rw [List.drop_zero] at hg
    simp [isComment, hg, hash] at code
  | case4 line n g rest here newline first kind reserved ih =>
    have next := drop_succ_of_drop hg
    have hrow := getElem?_of_drop hg
    have lt := (List.getElem?_eq_some_iff.mp hrow).1
    have holds : Holds (text.lineAt k) n (n + 1) kind := .reserved hrow reserved
    obtain ⟨spans, scanned, listed⟩ := ih hl lt next fun m hm _ ↦ by
      obtain rfl : m = n := by omega
      exact partAt_of_reserved hrow reserved
    refine ⟨⟨k, n, n + 1, kind⟩ :: spans, ?_, listed_cons holds listed⟩
    rw [scanned]
    simp [Span.token, Span.bytes, placeAt, hg, here, hl, Bytes.ofGlyphs, Int.add_comm]
  | case5 line n g rest newline first reserved space ih =>
    have hrow := getElem?_of_drop hg
    have lt := (List.getElem?_eq_some_iff.mp hrow).1
    obtain ⟨spans, scanned, listed⟩ := ih hl lt (drop_succ_of_drop hg) fun m hm _ ↦ by
      obtain rfl : m = n := by omega
      exact partAt_of_isSpace hrow space
    exact ⟨spans, scanned, listed_skip hrow space listed⟩
  | case6 line n g rest here newline first reserved space run ih =>
    have part : g.isNamePart = true := by simp [Glyph.isNamePart, space, reserved]
    have partAt_n : partAt (text.lineAt k) n = true := by
      simp [partAt, getElem?_of_drop hg, part]
    have cut : (text.lineAt k).drop n = (g :: run) ++ rest.dropWhile Glyph.isNamePart := by
      rw [hg, List.cons_append, List.takeWhile_append_dropWhile]
    have parts : ∀ c ∈ g :: run, c.isNamePart = true := by
      intro c hc
      rcases List.mem_cons.mp hc with rfl | hc
      · exact part
      · exact List.mem_takeWhile_imp hc
    have stop : n + 1 + run.length = n + (g :: run).length := by
      rw [List.length_cons]
      omega
    have holds := holds_run cut (by simp) parts fun m hm ↦ fresh m hm partAt_n
    have stops := partAt_stop cut
    rw [← stop] at holds stops
    obtain ⟨spans, scanned, listed⟩ := ih hl holds.le_length
      (by rw [stop, ← List.drop_drop, cut, List.drop_left])
      fun m _ part' ↦ absurd part' (by simp [stops])
    refine ⟨⟨k, n, n + 1 + run.length, .name⟩ :: spans, ?_, listed_cons holds listed⟩
    rw [scanned]
    simp [Span.token, Span.bytes, placeAt, here, hl, Int.add_comm, stop, cut]

/-- A whole line is read, be it a comment or not. -/
theorem exists_spans_line (source : Bytes) (unfed : ∀ g ∈ text.lineAt k, g.is '\n' = false) :
    ∃ spans, Source.scan source (k + 1) 0 (text.lineAt k) =
        spans.map (Span.token source text) ++ [endToken source text k] ∧
      Span.Listed (fun s ↦ s.line = k ∧ s.IsToken text) spans := by
  cases comment : isComment (text.lineAt k) with
  | true =>
    refine ⟨[], ?_, .nil ?_⟩
    · cases hrow : text.lineAt k with
      | nil => simp [isComment, hrow] at comment
      | cons g rest =>
        have hash : g.is '#' = true := by simpa [isComment, hrow] using comment
        have goesOn : ∀ c ∈ rest, (!c.is '\n') = true := by
          intro c hc
          simp [unfed c (by simp [hrow, hc])]
        rw [Source.scan, if_neg (by simp [unfed g (by simp [hrow])]), if_pos ⟨rfl, hash⟩]
        dsimp only
        rw [List.takeWhile_eq_self_iff.mpr goesOn, List.dropWhile_eq_nil_iff.mpr goesOn,
          Source.scan]
        simp [endToken, placeAt, hrow, Int.add_comm]
    · rintro s ⟨rfl, token⟩
      simp [token.code] at comment
  | false =>
    obtain ⟨spans, scanned, listed⟩ := exists_spans_drop source unfed comment rfl (Nat.zero_le _)
      (List.drop_zero ..) (by omega)
    refine ⟨spans, scanned, listed.congr fun s ↦ ⟨?_, ?_⟩⟩
    · rintro ⟨rfl, -, holds⟩
      exact ⟨rfl, comment, holds⟩
    · rintro ⟨rfl, token⟩
      exact ⟨rfl, Nat.zero_le _, token.holds⟩

/-! ### Reading a text -/

theorem Span.IsToken.line_lt {s : Span} (h : s.IsToken text) :
    s.line < (text.splitOn 10).length := by
  have := h.holds.lt
  have := h.holds.le_length
  by_contra out
  have : text.lineAt s.line = [] := by
    rw [Bytes.lineAt, List.getD_eq_default _ _ (Nat.le_of_not_lt out), Bytes.glyphs_nil]
  simp_all

/-- The tokens of a text in front of its end are those of its spans. -/
theorem programTokens_spans {spans : List Span} (source : Bytes) {last : Token}
    (h : ∀ s ∈ spans, s.IsToken text) (ends : last.kind = .endOfText) :
    programTokens (spans.map (Span.token source text) ++ [last]) =
      spans.map (Span.token source text) := by
  rw [programTokens, List.takeWhile_append_of_pos]
  · simp [ends]
  · intro t ht
    obtain ⟨s, hs, rfl⟩ := List.mem_map.mp ht
    simpa [Span.token] using (h s hs).holds.kind_ne

theorem lineAt_of_drop {line : Bytes} {lines : List Bytes}
    (h : (text.splitOn 10).drop k = line :: lines) : text.lineAt k = line.glyphs := by
  simp [Bytes.lineAt, List.getD_eq_getElem?_getD, getElem?_of_drop h]

theorem lineFeeds_lineAt (text : Bytes) (k : Nat) : Glyph.lineFeeds (text.lineAt k) = 0 := by
  rw [Bytes.lineAt, Glyph.lineFeeds_glyphs, List.count_eq_zero]
  exact not_mem_getD_splitOn text k

/-- The lines of a text are read from line `k` on. -/
theorem exists_spans_lines (source : Bytes) {lines : List Bytes}
    (h : (text.splitOn 10).drop k = lines) (nonempty : lines ≠ []) :
    ∃ spans, Source.scan source (k + 1) 0 (Bytes.join [10] lines).glyphs =
        spans.map (Span.token source text) ++ [endToken source text (text.count 10)] ∧
      Span.Listed (fun s ↦ k ≤ s.line ∧ s.IsToken text) spans := by
  induction lines generalizing k with
  | nil => exact absurd rfl nonempty
  | cons line lines ih =>
    have row := lineAt_of_drop h
    have unfed := lineFeeds_lineAt text k
    obtain ⟨spans, scanned, listed⟩ :=
      exists_spans_line source (by simpa [Glyph.lineFeeds] using unfed)
    cases lines with
    | nil =>
      have hl := congrArg List.length h
      rw [List.length_drop, Bytes.length_splitOn, List.length_singleton] at hl
      obtain rfl : k = text.count 10 := by omega
      refine ⟨spans, by rw [Bytes.join, ← row, scanned], listed.congr fun s ↦ ?_⟩
      constructor
      · rintro ⟨line, token⟩
        exact ⟨line.ge, token⟩
      · rintro ⟨le, token⟩
        have := token.line_lt
        rw [Bytes.length_splitOn] at this
        exact ⟨by omega, token⟩
    | cons next lines =>
      obtain ⟨spans', scanned', listed'⟩ := ih (drop_succ_of_drop h) (by simp)
      refine ⟨spans ++ spans', ?_, (listed.append listed' ?_).congr fun s ↦ ?_⟩
      · rw [Bytes.join, List.append_assoc, List.singleton_append, glyphs_append_lineFeed,
          scan_append_lineFeed, ← row, unfed, scanned, programTokens_spans source ?_ rfl, scanned',
          List.map_append, List.append_assoc]
        exact fun s hs ↦ ((listed.mem_iff s).mp hs).2
      · rintro s s' ⟨rfl, -⟩ ⟨lt, -⟩
        exact .inl lt
      · constructor
        · rintro (⟨rfl, token⟩ | ⟨lt, token⟩)
          · exact ⟨Nat.le_refl _, token⟩
          · exact ⟨by omega, token⟩
        · rintro ⟨le, token⟩
          by_cases eq : s.line = k
          · exact .inl ⟨eq, token⟩
          · exact .inr ⟨by omega, token⟩

end Reading

/-! ### Every byte has its token -/

/-- Byte `p` of a text is in a comment. -/
def Bytes.InComment (text : Bytes) (p : Nat) : Prop :=
  ∃ k, isComment (text.lineAt k) = true ∧ (text.before k 0).length ≤ p ∧
    p < (text.before k (text.lineAt k).length).length

/-- Byte `p` of a text is in the stretch. -/
def Span.Covers (text : Bytes) (p : Nat) (s : Span) : Prop :=
  (text.before s.line s.first).length ≤ p ∧ p < (text.before s.line s.stop).length

section Covering

variable {text : Bytes} {p : Nat}

/-- Every byte ends a line or is part of a glyph of a line. -/
theorem exists_glyph {b : UInt8} (h : text[p]? = some b) :
    b = 10 ∨ ∃ k m g, (text.lineAt k)[m]? = some g ∧ b ∈ g.bytes ∧
      (text.before k m).length ≤ p ∧ p < (text.before k (m + 1)).length := by
  have inLines : (Bytes.ofLines (text.splitOn 10))[p]? = some b := by
    rw [Bytes.ofLines_splitOn, List.getElem?_append_left (List.getElem?_eq_some_iff.mp h).1, h]
  obtain ⟨k, line, q, hk, hq, hp⟩ := exists_of_getElem?_flatMap inLines
  by_cases inside : q < line.length
  · right
    have row : text.lineAt k = line.glyphs := by
      simp [Bytes.lineAt, List.getD_eq_getElem?_getD, hk]
    rw [List.getElem?_append_left inside, ← Bytes.ofGlyphs_glyphs line, ← row] at hq
    obtain ⟨m, g, r, hm, hr, hq⟩ := exists_of_getElem?_flatMap hq
    have := (List.getElem?_eq_some_iff.mp hr).1
    refine ⟨k, m, g, hm, List.mem_of_getElem? hr, ?_, ?_⟩
    · rw [Bytes.before, List.length_append, Bytes.ofLines, Bytes.ofGlyphs]
      omega
    · rw [Bytes.before, List.length_append, Bytes.ofLines, Bytes.ofGlyphs, flatMap_take_succ hm,
        List.length_append]
      omega
  · left
    rw [List.getElem?_append_right (Nat.le_of_not_lt inside)] at hq
    exact (List.mem_singleton.mp (List.mem_of_getElem? hq))

theorem mem_spaces {k : Nat} {g : Glyph} (mem : g ∈ text.lineAt k) (space : g.isSpace = true)
    {b : UInt8} (h : b ∈ g.bytes) : b ∈ ([9, 10, 11, 12, 13, 32] : Bytes) := by
  rcases Bytes.ascii_or_isForeign mem with ⟨b', -, rfl⟩ | foreign
  · rw [List.mem_singleton.mp h]
    exact (Glyph.isSpace_ascii_iff b').mp space
  · simp [Glyph.isSpace, foreign.is_eq_false] at space

/-- No byte is in two tokens. -/
theorem Span.IsToken.eq_of_covers {s s' : Span} (h : s.IsToken text) (h' : s'.IsToken text)
    (covers : s.Covers text p) (covers' : s'.Covers text p) : s = s' := by
  obtain ⟨line, first, stop, kind⟩ := s
  obtain ⟨line', first', stop', kind'⟩ := s'
  obtain ⟨-, holds⟩ := h
  obtain ⟨-, holds'⟩ := h'
  obtain ⟨le, lt⟩ := covers
  obtain ⟨le', lt'⟩ := covers'
  dsimp only at *
  -- If one token ended before the other, in a line above or in the same line, the byte would be on
  -- one side only. So the two overlap.
  obtain rfl : line = line' := by
    rcases Nat.lt_trichotomy line line' with less | equal | more
    · have := length_before_le text stop first' less
      omega
    · exact equal
    · have := length_before_le text stop' first more
      omega
  have lt_stop : first < stop' := by
    by_contra out
    have := length_before_mono text line (Nat.le_of_not_lt out)
    omega
  have lt_stop' : first' < stop := by
    by_contra out
    have := length_before_mono text line (Nat.le_of_not_lt out)
    omega
  rcases Nat.le_total first first' with before | behind
  · obtain ⟨rfl, rfl, rfl⟩ := holds.eq_of_overlap holds' before lt_stop'
    rfl
  · obtain ⟨rfl, rfl, rfl⟩ := holds'.eq_of_overlap holds behind lt_stop
    rfl

/-- Every byte is a line feed, in a comment, white space or in exactly one token. -/
theorem covered {b : UInt8} (h : text[p]? = some b) :
    b = 10 ∨ text.InComment p ∨ b ∈ ([9, 11, 12, 13, 32] : Bytes) ∨
      ∃! s : Span, s.IsToken text ∧ s.Covers text p := by
  rcases exists_glyph h with rfl | ⟨k, m, g, hm, mem, le, lt⟩
  · exact .inl rfl
  have row := (List.getElem?_eq_some_iff.mp hm).1
  cases comment : isComment (text.lineAt k) with
  | true =>
    refine .inr (.inl ⟨k, comment, ?_, ?_⟩)
    · have := length_before_mono text k (Nat.zero_le m)
      omega
    · have := length_before_mono text k (show m + 1 ≤ (text.lineAt k).length from row)
      omega
  | false =>
    rcases isSpace_or_exists_holds hm with space | ⟨first, stop, kind, holds, le', lt'⟩
    · have := mem_spaces (List.mem_of_getElem? hm) space mem
      simp only [List.mem_cons] at this ⊢
      tauto
    · have token : Span.IsToken text ⟨k, first, stop, kind⟩ := ⟨comment, holds⟩
      have covers : Span.Covers text p ⟨k, first, stop, kind⟩ := by
        have := length_before_mono text k le'
        have := length_before_mono text k (show m + 1 ≤ stop from lt')
        constructor
        all_goals
          dsimp only
          omega
      refine .inr (.inr (.inr ⟨_, ⟨token, covers⟩, ?_⟩))
      rintro s ⟨token', covers'⟩
      exact token'.eq_of_covers token covers' covers

end Covering

/-- The lines of a text hold no line feed and make up the text. The tokens of the text are, in their
order, all the stretches that its lines hold, each with its bytes, a parenthesis, a backslash or a
name, and located by the line feeds before it and the glyphs to its left in its line. Then comes the
end, located in the same way behind the last glyph. Every byte is a line feed, in a comment, white
space or in exactly one of the tokens. -/
theorem tokenize_by_lines (source text : Bytes) :
    Bytes.ofLines (text.splitOn 10) = text ++ [10] ∧
      (∀ line ∈ text.splitOn 10, 10 ∉ line) ∧
      ∃ spans : List Span,
        tokenize source text = spans.map (Span.token source text) ++
          [⟨.endOfText, [], placeAt source (text.count 10) (text.lineAt (text.count 10)).length⟩] ∧
        Span.Listed (Span.IsToken text) spans ∧
        (∀ s ∈ spans, Lexeme.IsOwn (s.kind, s.bytes text) ∧
          (text.before s.line s.first).count 10 = s.line ∧
          text.before s.line s.first ++ s.bytes text <+: text) ∧
        text.before (text.count 10) (text.lineAt (text.count 10)).length = text ∧
        ∀ (p : Nat) (b : UInt8), text[p]? = some b →
          b = 10 ∨ text.InComment p ∨ b ∈ ([9, 11, 12, 13, 32] : Bytes) ∨
            ∃! s : Span, s ∈ spans ∧ s.Covers text p := by
  refine ⟨Bytes.ofLines_splitOn text, fun _ ↦ Bytes.not_mem_of_mem_splitOn, ?_⟩
  obtain ⟨spans, scanned, listed⟩ :=
    exists_spans_lines source (List.drop_zero ..) (Bytes.splitOn_ne_nil 10 text)
  replace listed : Span.Listed (Span.IsToken text) spans := listed.congr (by simp)
  have tokens : tokenize source text =
      spans.map (Span.token source text) ++ [endToken source text (text.count 10)] := by
    rwa [Bytes.join_splitOn] at scanned
  refine ⟨spans, tokens, listed, ?_, before_end text, ?_⟩
  · intro s hs
    have token := (listed.mem_iff s).mp hs
    have own : (s.token source text).lexeme.IsOwn := by
      apply (lexemes_tokenize source text).2
      rw [tokens, programTokens_spans source (fun s ↦ (listed.mem_iff s).mp) rfl]
      exact List.mem_map_of_mem hs
    refine ⟨own, count_before token.line_lt.le, ?_⟩
    rw [Span.bytes, ← before_of_le text s.line token.holds.lt.le]
    exact before_prefix_text token.line_lt
  · intro p b h
    simpa only [listed.mem_iff] using covered h

/-- A comment, a line with `#` behind a blank and inside names, one of which ends in the middle of
an encoding, and a comment that nothing ends. -/
theorem tokenize_by_lines_comments :
    ∃ (text : Bytes) (spans : List Span),
      text = lit "#(\n #a(b#" ++ [0xE2, 0x82] ++ lit ")\n#x" ∧
      (tokenize (lit "t") text).map (fun t ↦ (t.text, t.location.line, t.location.column)) =
        [(lit "#a", 2, 2), (lit "(", 2, 4), (lit "b#" ++ [0xE2, 0x82], 2, 5), (lit ")", 2, 9),
          ([], 3, 3)] ∧
      spans.length = 4 ∧ Span.Listed (Span.IsToken text) spans := by
  obtain ⟨text, htext⟩ : ∃ text, text = lit "#(\n #a(b#" ++ [0xE2, 0x82] ++ lit ")\n#x" := ⟨_, rfl⟩
  obtain ⟨-, -, spans, tokens, listed, -⟩ := tokenize_by_lines (lit "t") text
  refine ⟨text, spans, htext, ?_, ?_, listed⟩
  · subst htext
    cbv
  · have : (tokenize (lit "t") text).length = 5 := by
      subst htext
      cbv
    simpa [tokens] using this

end BitCalculus
