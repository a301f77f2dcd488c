import Mathlib
import BitCalculus.Proofs.Text.Glyph
import BitCalculus.Proofs.Text.Numerals
import BitCalculus.Text.JsonString

/-!
# JSON texts

A text is read as JSON code point by code point: blanks may stand between any two parts, items stand
between commas, and a string ends at its first quote that no backslash precedes. The reader is
strict: it refuses stray bytes, control characters in strings, commas before a closing mark and
zeros in front of a number. It knows numbers without fraction and exponent only, and no escaped
surrogates. Main statement: `readString_jsonString`, a string literal is read as the text that it
was written for.
-/

namespace BitCalculus

/-! ### Code points -/

namespace Bytes

/-- The code points of a text that is valid UTF-8. -/
def points? (text : Bytes) : Option (List Nat) :=
  text.glyphs.mapM Glyph.point

/-- The code points of a text, with the replacement character for every stray byte. -/
def points (text : Bytes) : List Nat :=
  text.glyphs.map fun g ↦ g.point.getD replacementPoint

/-- Whatever valid text follows it, a text spells the given code points. -/
def Spells (text : Bytes) (points : List Nat) : Prop :=
  ∀ more rest, points? more = some rest → points? (text ++ more) = some (points ++ rest)

theorem spells_nil : Spells [] [] :=
  fun _ _ h ↦ h

theorem Spells.append {a b : Bytes} {p q : List Nat} (ha : a.Spells p) (hb : b.Spells q) :
    (a ++ b).Spells (p ++ q) := by
  intro more rest h
  rw [List.append_assoc, List.append_assoc]
  exact ha _ _ (hb more rest h)

theorem Spells.points? {text : Bytes} {p : List Nat} (h : text.Spells p) :
    text.points? = some p := by
  have spelled := h [] [] (by rw [Bytes.points?, glyphs_nil]; rfl)
  rwa [List.append_nil, List.append_nil] at spelled

theorem spells_flatMap {α : Type} {f : α → Bytes} {p : α → List Nat} {l : List α}
    (h : ∀ x ∈ l, (f x).Spells (p x)) : Spells (l.flatMap f) (l.flatMap p) := by
  induction l with
  | nil => exact spells_nil
  | cons x l ih =>
    obtain ⟨first, rest⟩ := List.forall_mem_cons.mp h
    rw [List.flatMap_cons, List.flatMap_cons]
    exact first.append (ih rest)

/-- An ASCII text spells its bytes. -/
theorem spells_ascii {text : Bytes} (h : ∀ b ∈ text, b < 0x80) :
    text.Spells (text.map UInt8.toNat) := by
  induction text with
  | nil => exact spells_nil
  | cons b text ih =>
    obtain ⟨first, rest⟩ := List.forall_mem_cons.mp h
    intro more points hp
    have tail := ih rest more points hp
    rw [Bytes.points?] at tail ⊢
    rw [List.cons_append, glyphs_cons_ascii first, List.mapM_cons, tail]
    rfl

/-- A glyph with a code point is read from its bytes again. -/
theorem glyphs_append_of_mem {text : Bytes} {g : Glyph} {p : Nat} (hg : g ∈ text.glyphs)
    (hp : g.point = some p) (more : Bytes) : glyphs (g.bytes ++ more) = g :: more.glyphs := by
  induction text using glyphs.induct with
  | case1 => simp at hg
  | case2 first rest g' ih =>
    rw [glyphs_cons] at hg
    rcases List.mem_cons.mp hg with rfl | hg
    · -- The first byte says how many bytes belong to the glyph, and these are the same again.
      unfold Glyph.ofHead at hp ⊢
      by_cases ascii : first < 0x80
      · rw [if_pos ascii]
        exact glyphs_cons_ascii ascii more
      · rw [if_neg ascii] at hp ⊢
        dsimp only at hp ⊢
        split at hp
        · next complete =>
          rw [if_pos complete]
          generalize rest.take (Glyph.tailLength first) = tail at complete
          have same : Glyph.ofHead first (tail ++ more) =
              ⟨some (tail.foldl (fun n b ↦ n * 64 + b.toNat % 64) (Glyph.leadBits first)),
                first :: tail⟩ := by
            rw [Glyph.ofHead, if_neg ascii, ← complete.1, List.take_left]
            dsimp only
            rw [if_pos ⟨rfl, complete.2⟩]
          rw [List.cons_append, glyphs_cons, same, List.length_cons, Nat.add_sub_cancel,
            List.drop_left]
        · cases hp
    · exact ih hg

theorem spells_glyph {text : Bytes} {g : Glyph} {p : Nat} (hg : g ∈ text.glyphs)
    (hp : g.point = some p) : g.bytes.Spells [p] := by
  intro more rest h
  rw [points?] at h ⊢
  rw [glyphs_append_of_mem hg hp, List.mapM_cons, hp, h]
  rfl

end Bytes

/-! ### Reading -/

/-- A JSON value. Texts are lists of code points; members stand in the order of the text. -/
inductive Json where
  | null
  | boolean (b : Bool)
  | number (i : Int)
  | string (points : List Nat)
  | array (items : List Json)
  | object (members : List (List Nat × Json))

namespace Json

/-- Whether a code point may stand between the parts of a text. -/
def isBlank (p : Nat) : Bool :=
  p == 32 || p == 9 || p == 10 || p == 13

/-- A text without the blanks in front of it. -/
def skip (text : List Nat) : List Nat :=
  text.dropWhile isBlank

/-- The value of a hexadecimal digit. -/
def hexValue (p : Nat) : Option Nat :=
  if 48 ≤ p ∧ p ≤ 57 then some (p - 48)
  else if 97 ≤ p ∧ p ≤ 102 then some (p - 87)
  else if 65 ≤ p ∧ p ≤ 70 then some (p - 55)
  else none

/-- The code point that four hexadecimal digits name; a surrogate is none. -/
def escapedPoint (a b c d : Nat) : Option Nat :=
  match hexValue a, hexValue b, hexValue c, hexValue d with
  | some a, some b, some c, some d =>
    let point := ((a * 16 + b) * 16 + c) * 16 + d
    if 0xD800 ≤ point ∧ point ≤ 0xDFFF then none else some point
  | _, _, _, _ => none

/-- The code point that a letter stands for behind a backslash. -/
def unescape : Nat → Option Nat
  | 34 => some 34
  | 92 => some 92
  | 47 => some 47
  | 98 => some 8
  | 102 => some 12
  | 110 => some 10
  | 114 => some 13
  | 116 => some 9
  | _ => none

/-- A code point in front of a string that was read. -/
def withPoint (point : Option Nat) (read : Option (List Nat × List Nat)) :
    Option (List Nat × List Nat) :=
  match point, read with
  | some p, some (points, rest) => some (p :: points, rest)
  | _, _ => none

/-- What a string says whose opening quote was read, and what follows its closing quote. -/
def readString : List Nat → Option (List Nat × List Nat)
  | [] => none
  | 34 :: rest => some ([], rest)
  | 92 :: 117 :: a :: b :: c :: d :: rest => withPoint (escapedPoint a b c d) (readString rest)
  | 92 :: letter :: rest => withPoint (unescape letter) (readString rest)
  | p :: rest => withPoint (if 32 ≤ p ∧ p ≠ 92 then some p else none) (readString rest)

/-- Whether a code point may stand in a number. -/
def isNumeral (p : Nat) : Bool :=
  (48 ≤ p && p ≤ 57) || p == 45

/-- The number in front of a text, written in the shortest way, and what follows it. -/
def readNumber (text : List Nat) : Option (Int × List Nat) :=
  let written := (text.takeWhile isNumeral).map Nat.toUInt8
  match Reading.numeral written with
  | some i => if Bytes.ofInt i = written then some (i, text.dropWhile isNumeral) else none
  | none => none

section Sequence

variable {α : Type} (close : Nat) (item : List Nat → Option (α × List Nat))

/-- One item or more with commas between them, up to the closing mark. -/
def readItems (text : List Nat) : Option (List α × List Nat) :=
  match item text with
  | none => none
  | some (x, rest) =>
    match skip rest with
    | [] => none
    | p :: more =>
      if p = close then some ([x], more)
      else if p = 44 ∧ more.length < text.length then
        (readItems more).map fun (xs, rest) ↦ (x :: xs, rest)
      else none
termination_by text.length

/-- Any number of items with commas between them, up to the closing mark. -/
def readSequence (text : List Nat) : Option (List α × List Nat) :=
  match skip text with
  | [] => none
  | p :: rest => if p = close then some ([], rest) else readItems close item text

end Sequence

/-- What follows a mark that a text begins with. -/
def readMark (mark : Nat) (text : List Nat) : Option (List Nat) :=
  match skip text with
  | [] => none
  | p :: rest => if p = mark then some rest else none

/-- A member of an object, given a way to read values. -/
def readMember (value : List Nat → Option (Json × List Nat)) (text : List Nat) :
    Option ((List Nat × Json) × List Nat) := do
  let rest ← readMark 34 text
  let (key, rest) ← readString rest
  let rest ← readMark 58 rest
  let (v, rest) ← value rest
  some ((key, v), rest)

/-- A value that is written as a word. -/
def readWord : List Nat → Option (Json × List Nat)
  | 110 :: 117 :: 108 :: 108 :: rest => some (.null, rest)
  | 116 :: 114 :: 117 :: 101 :: rest => some (.boolean true, rest)
  | 102 :: 97 :: 108 :: 115 :: 101 :: rest => some (.boolean false, rest)
  | _ => none

/-- The value in front of a text, nested up to the given depth, and what follows it. -/
def readValue : Nat → List Nat → Option (Json × List Nat)
  | 0, _ => none
  | depth + 1, text =>
    match skip text with
    | [] => none
    | p :: rest =>
      if p = 34 then
        (readString rest).map fun (points, rest) ↦ (.string points, rest)
      else if p = 91 then
        (readSequence 93 (readValue depth) rest).map fun (items, rest) ↦ (.array items, rest)
      else if p = 123 then
        (readSequence 125 (readMember (readValue depth)) rest).map fun (members, rest) ↦
          (.object members, rest)
      else if isNumeral p then
        (readNumber (p :: rest)).map fun (i, rest) ↦ (.number i, rest)
      else
        readWord (p :: rest)

/-- The value of a whole text. No value in it is nested deeper than the text is long. -/
def ofText? (text : Bytes) : Option Json :=
  match text.points? with
  | none => none
  | some points =>
    match readValue points.length points with
    | some (v, rest) => if (skip rest).isEmpty then some v else none
    | none => none

/-! ### Strings -/

theorem readString_plain {p : Nat} (low : 32 ≤ p) (quote : p ≠ 34) (backslash : p ≠ 92)
    (rest : List Nat) : readString (p :: rest) = withPoint (some p) (readString rest) := by
  rw [readString, if_pos ⟨low, backslash⟩]
  all_goals simp [quote, backslash]

theorem readString_quote (rest : List Nat) : readString (34 :: rest) = some ([], rest) := by
  rw [readString]

/-- A key or another plain text is read as it stands. -/
theorem readString_append {points : List Nat} (h : ∀ p ∈ points, 32 ≤ p ∧ p ≠ 34 ∧ p ≠ 92)
    (rest : List Nat) : readString (points ++ 34 :: rest) = some (points, rest) := by
  induction points with
  | nil => exact readString_quote rest
  | cons p points ih =>
    obtain ⟨⟨low, quote, backslash⟩, all⟩ := List.forall_mem_cons.mp h
    rw [List.cons_append, readString_plain low quote backslash, ih all]
    rfl

theorem hexValue_hexDigit {n : Nat} (h : n < 16) : hexValue (hexDigit n).toNat = some n := by
  interval_cases n <;> rfl

end Json

namespace JsonString

/-- The code points by which a code point is written by number. -/
def numberedPoints (point : Nat) : List Nat :=
  92 :: 117 :: (hexDigits 4 point).map UInt8.toNat

/-- The code points by which a stray byte is written. -/
def Strays.points : Strays → List Nat
  | asCharacter => [replacementPoint]
  | byNumber => numberedPoints replacementPoint

/-- The code points by which a glyph is written inside a literal. -/
def pointsOf (strays : Strays) (g : Glyph) : List Nat :=
  match g.point with
  | none => strays.points
  | some point =>
    match escapeLetter point with
    | some letter => [92, letter.toNat.toUInt8.toNat]
    | none => if byNumber point then numberedPoints point else [point]

/-- What has a short escape is written by a letter that stands for it. -/
theorem unescape_escapeLetter {point : Nat} {letter : Char} (h : escapeLetter point = some letter) :
    Json.unescape letter.toNat.toUInt8.toNat = some point ∧ letter.toNat.toUInt8 < 0x80 ∧
      letter.toNat.toUInt8.toNat ≠ 117 := by
  unfold escapeLetter at h
  split at h <;> cases h <;> decide

theorem lt_of_byNumber {point : Nat} (h : byNumber point = true) : point < 0xD800 := by
  simp only [byNumber, Bool.or_eq_true, decide_eq_true_eq, beq_iff_eq] at h
  omega

section Numbered

variable {point : Nat}

/-- A code point of four digits is named by them, unless it is a surrogate. -/
theorem escapedPoint_hexDigits (short : point < 0x10000) (h : point < 0xD800 ∨ 0xDFFF < point) :
    ∃ a b c d, hexDigits 4 point = [a, b, c, d] ∧ a < 0x80 ∧ b < 0x80 ∧ c < 0x80 ∧ d < 0x80 ∧
      Json.escapedPoint a.toNat b.toNat c.toNat d.toNat = some point := by
  have below (n : Nat) : n % 16 < 16 := Nat.mod_lt n (by decide)
  have ascii (n : Nat) : hexDigit (n % 16) < 0x80 := by
    have := below n
    interval_cases n % 16 <;> decide
  have digit (n : Nat) : Json.hexValue (hexDigit (n % 16)).toNat = some (n % 16) :=
    Json.hexValue_hexDigit (below n)
  refine ⟨_, _, _, _, rfl, ascii _, ascii _, ascii _, ascii _, ?_⟩
  rw [Json.escapedPoint, digit, digit, digit, digit]
  dsimp only
  rw [if_neg (by omega)]
  exact congrArg some (by omega)

theorem spells_numbered (short : point < 0x10000) (h : point < 0xD800 ∨ 0xDFFF < point) :
    (numbered point).Spells (numberedPoints point) := by
  obtain ⟨a, b, c, d, digits, ha, hb, hc, hd, -⟩ := escapedPoint_hexDigits short h
  have start : lit "\\u" = [92, 117] := rfl
  have ascii : ∀ b ∈ [92, 117] ++ hexDigits 4 point, b < 0x80 := by
    simp [digits, ha, hb, hc, hd]
  rw [numbered, start]
  exact Bytes.spells_ascii ascii

/-- What is written by number is read as the code point. -/
theorem readString_numberedPoints (short : point < 0x10000) (h : point < 0xD800 ∨ 0xDFFF < point)
    (rest : List Nat) :
    Json.readString (numberedPoints point ++ rest) =
      Json.withPoint (some point) (Json.readString rest) := by
  obtain ⟨a, b, c, d, digits, -, -, -, -, named⟩ := escapedPoint_hexDigits short h
  rw [numberedPoints, digits]
  simp only [List.map_cons, List.map_nil, List.cons_append, List.nil_append]
  rw [Json.readString, named]

end Numbered

theorem Strays.spells_encode (strays : Strays) : strays.encode.Spells strays.points := by
  cases strays with
  | asCharacter =>
    have stands : (⟨some 0xFFFD, [0xEF, 0xBF, 0xBD]⟩ : Glyph) ∈
        Bytes.glyphs [0xEF, 0xBF, 0xBD] := by
      rw [Bytes.glyphs_cons]
      exact List.mem_cons_self
    exact Bytes.spells_glyph stands rfl
  | byNumber => exact spells_numbered (by decide) (.inr (by decide))

/-- Either way a stray byte is read as the replacement character. -/
theorem Strays.readString_points (strays : Strays) (rest : List Nat) :
    Json.readString (strays.points ++ rest) =
      Json.withPoint (some replacementPoint) (Json.readString rest) := by
  cases strays with
  | asCharacter => exact Json.readString_plain (by decide) (by decide) (by decide) rest
  | byNumber => exact readString_numberedPoints (by decide) (.inr (by decide)) rest

/-- What is written as it stands is no quote, no backslash and no control character. -/
theorem plain_of_kept {point : Nat} (h : escapeLetter point = none) (h' : byNumber point = false) :
    32 ≤ point ∧ point ≠ 34 ∧ point ≠ 92 := by
  refine ⟨?_, ?_, ?_⟩
  · by_contra low
    simp [byNumber] at h'
    omega
  · rintro rfl
    cases h
  · rintro rfl
    cases h

section Glyphs

variable (strays : Strays)

theorem spells_encodeGlyph {text : Bytes} {g : Glyph} (hg : g ∈ text.glyphs) :
    (encodeGlyph strays g).Spells (pointsOf strays g) := by
  unfold encodeGlyph pointsOf
  cases hp : g.point with
  | none => exact strays.spells_encode
  | some point =>
    dsimp only
    cases hl : escapeLetter point with
    | some letter =>
      refine Bytes.spells_ascii fun b hb ↦ ?_
      rcases List.mem_cons.mp hb with rfl | hb
      · decide
      · rw [List.mem_singleton.mp hb]
        exact (unescape_escapeLetter hl).2.1
    | none =>
      dsimp only
      by_cases number : byNumber point = true
      · rw [if_pos number, if_pos number]
        have low := lt_of_byNumber number
        exact spells_numbered (by omega) (.inl low)
      · rw [if_neg number, if_neg number]
        exact Bytes.spells_glyph hg hp

theorem readString_pointsOf (g : Glyph) (rest : List Nat) :
    Json.readString (pointsOf strays g ++ rest) =
      Json.withPoint (some (g.point.getD replacementPoint)) (Json.readString rest) := by
  unfold pointsOf
  cases hp : g.point with
  | none => exact strays.readString_points rest
  | some point =>
    dsimp only
    cases hl : escapeLetter point with
    | some letter =>
      obtain ⟨named, -, other⟩ := unescape_escapeLetter hl
      dsimp only
      generalize letter.toNat.toUInt8.toNat = q at named other ⊢
      rw [List.cons_append, List.cons_append, List.nil_append, Json.readString, named]
      · rfl
      · simp [other]
    | none =>
      dsimp only
      by_cases number : byNumber point = true
      · rw [if_pos number]
        have low := lt_of_byNumber number
        exact readString_numberedPoints (by omega) (.inl low) rest
      · rw [if_neg number]
        obtain ⟨low, quote, backslash⟩ := plain_of_kept hl (by simpa using number)
        exact Json.readString_plain low quote backslash rest

end Glyphs

end JsonString

/-- The code points of a string literal. -/
def Bytes.literalPoints (strays : JsonString.Strays) (text : Bytes) : List Nat :=
  34 :: (text.glyphs.flatMap (JsonString.pointsOf strays) ++ [34])

theorem Bytes.spells_jsonString (strays : JsonString.Strays) (text : Bytes) :
    (text.jsonString strays).Spells (text.literalPoints strays) := by
  have quote : Spells [34] [34] := spells_ascii (by simp)
  have inner : Spells (text.glyphs.flatMap (JsonString.encodeGlyph strays))
      (text.glyphs.flatMap (JsonString.pointsOf strays)) :=
    spells_flatMap fun _ hg ↦ JsonString.spells_encodeGlyph strays hg
  exact (quote.append inner).append quote

namespace Json

/-- A string literal says what it was written for, with the replacement character for stray bytes.
-/
theorem readString_jsonString (strays : JsonString.Strays) (text : Bytes) (rest : List Nat) :
    readString (text.glyphs.flatMap (JsonString.pointsOf strays) ++ 34 :: rest) =
      some (text.points, rest) := by
  rw [Bytes.points]
  induction text.glyphs with
  | nil => exact readString_quote rest
  | cons g gs ih =>
    rw [List.flatMap_cons, List.append_assoc, JsonString.readString_pointsOf, ih]
    rfl

/-! ### Numbers -/

theorem isNumeral_of_mem_ofInt {i : Int} {b : UInt8} (h : b ∈ Bytes.ofInt i) :
    isNumeral b.toNat = true ∧ b < 0x80 := by
  have numeral := Bytes.isNumeral_of_mem_ofInt h
  simp only [Reading.isNumeral, Reading.isDigit, Bool.or_eq_true, Bool.and_eq_true,
    decide_eq_true_eq, beq_iff_eq, UInt8.le_iff_toNat_le, ← UInt8.toNat_inj] at numeral
  rw [isNumeral, UInt8.lt_iff_toNat_lt]
  simp only [Bool.or_eq_true, Bool.and_eq_true, decide_eq_true_eq, beq_iff_eq]
  simp only [UInt8.reduceToNat] at numeral ⊢
  omega

/-- No numeral goes on in a text. -/
def Follows (rest : List Nat) : Prop :=
  ∀ p ∈ rest.head?, isNumeral p = false

theorem follows_cons {p : Nat} (h : isNumeral p = false) (rest : List Nat) :
    Follows (p :: rest) := by
  simp [Follows, h]

theorem readNumber_ofInt (i : Int) {rest : List Nat} (follows : Follows rest) :
    readNumber ((Bytes.ofInt i).map UInt8.toNat ++ rest) = some (i, rest) := by
  have all : ∀ p ∈ (Bytes.ofInt i).map UInt8.toNat, isNumeral p = true := by
    intro p hp
    obtain ⟨b, hb, rfl⟩ := List.mem_map.mp hp
    exact (isNumeral_of_mem_ofInt hb).1
  have stops : rest.takeWhile isNumeral = [] ∧ rest.dropWhile isNumeral = rest := by
    cases rest with
    | nil => exact ⟨rfl, rfl⟩
    | cons p rest => simp [follows p rfl]
  have back : ((Bytes.ofInt i).map UInt8.toNat).map Nat.toUInt8 = Bytes.ofInt i := by
    rw [List.map_map]
    exact List.map_id'' (fun b ↦ UInt8.ofNat_toNat) _
  rw [readNumber, List.takeWhile_append_of_pos all, List.dropWhile_append_of_pos all, stops.1,
    stops.2, List.append_nil, back, Reading.numeral_ofInt]
  simp

/-! ### Values -/

theorem skip_cons {p : Nat} (h : isBlank p = false) (rest : List Nat) :
    skip (p :: rest) = p :: rest := by
  simp [skip, h]

theorem skip_blank {p : Nat} (h : isBlank p = true) (rest : List Nat) :
    skip (p :: rest) = skip rest := by
  simp [skip, h]

/-- A text is read as an item, whatever follows it that does not go on like a numeral. -/
def ReadsAs {α : Type} (item : List Nat → Option (α × List Nat)) (text : List Nat) (x : α) : Prop :=
  ∀ rest, Follows rest → item (text ++ rest) = some (x, rest)

theorem readsAs_string (depth : Nat) (strays : JsonString.Strays) (text : Bytes) :
    ReadsAs (readValue (depth + 1)) (text.literalPoints strays) (.string text.points) := by
  intro rest _
  rw [Bytes.literalPoints, List.cons_append, List.append_assoc, List.singleton_append, readValue,
    skip_cons (by decide)]
  dsimp only
  rw [if_pos rfl, readString_jsonString]
  rfl

theorem readsAs_number (depth : Nat) (i : Int) :
    ReadsAs (readValue (depth + 1)) ((Bytes.ofInt i).map UInt8.toNat) (.number i) := by
  intro rest follows
  have read := readNumber_ofInt i follows
  obtain ⟨b, more, whole⟩ := List.exists_cons_of_ne_nil (Bytes.ofInt_ne_nil i)
  have numeral : isNumeral b.toNat = true :=
    (isNumeral_of_mem_ofInt (i := i) (whole ▸ List.mem_cons_self)).1
  have blank : isBlank b.toNat = false := by
    simp only [isNumeral, isBlank, Bool.or_eq_true, Bool.and_eq_true, decide_eq_true_eq,
      beq_iff_eq, Bool.or_eq_false_iff, beq_eq_false_iff_ne] at numeral ⊢
    omega
  rw [whole, List.map_cons, List.cons_append] at read ⊢
  rw [readValue, skip_cons blank]
  generalize b.toNat = p at *
  have other : p ≠ 34 ∧ p ≠ 91 ∧ p ≠ 123 := by
    simp only [isNumeral, Bool.or_eq_true, Bool.and_eq_true, decide_eq_true_eq,
      beq_iff_eq] at numeral
    omega
  dsimp only
  rw [if_neg other.1, if_neg other.2.1, if_neg other.2.2, if_pos numeral, read]
  rfl

/-- A blank in front of a value does not matter. -/
theorem ReadsAs.blank {depth p : Nat} {text : List Nat} {v : Json} (h : isBlank p = true)
    (read : ReadsAs (readValue (depth + 1)) text v) :
    ReadsAs (readValue (depth + 1)) (p :: text) v := by
  intro rest follows
  have same := read rest follows
  rw [readValue] at same
  rwa [List.cons_append, readValue, skip_blank h]

/-! ### Items between commas -/

/-- A mark that may stand behind a value and is no comma. -/
structure IsMark (p : Nat) : Prop where
  blank : isBlank p = false
  numeral : isNumeral p = false
  comma : p ≠ 44

section Sequence

variable {α : Type} {close : Nat} {item : List Nat → Option (α × List Nat)}

theorem readItems_flatMap (mark : IsMark close) {x : α} {text : List Nat}
    (first : ReadsAs item text x) {xs : List α} {texts : List (List Nat)}
    (others : List.Forall₂ (ReadsAs item) texts xs) (rest : List Nat) :
    readItems close item (text ++ (texts.flatMap (44 :: ·) ++ close :: rest)) =
      some (x :: xs, rest) := by
  -- The mark or the comma behind the first item tells whether another one follows.
  induction others generalizing x text with
  | nil =>
    rw [readItems, List.flatMap_nil, List.nil_append, first _ (follows_cons mark.numeral rest)]
    dsimp only
    rw [skip_cons mark.blank]
    dsimp only
    rw [if_pos rfl]
  | @cons next y texts xs second _ ih =>
    have tail := ih second
    rw [readItems, List.flatMap_cons, List.append_assoc, List.cons_append,
      first _ (follows_cons (by decide) _)]
    dsimp only
    rw [skip_cons (by decide)]
    dsimp only
    rw [if_neg mark.comma.symm, if_pos ⟨rfl, by simp; omega⟩, tail]
    rfl

/-- Behind the first of several texts every one has a comma in front of it. -/
theorem intercalate_cons (text : List Nat) (texts : List (List Nat)) :
    [44].intercalate (text :: texts) = text ++ texts.flatMap (44 :: ·) := by
  induction texts generalizing text with
  | nil => simp
  | cons next texts ih => rw [List.intercalate_cons_cons, ih]; simp

/-- A text that begins neither with a blank nor with a closing mark. -/
def Starts (close : Nat) (text : List Nat) : Prop :=
  ∃ p more, text = p :: more ∧ isBlank p = false ∧ p ≠ close

/-- Items are read back that stand between commas. -/
theorem readSequence_intercalate (mark : IsMark close) {xs : List α} {texts : List (List Nat)}
    (items : List.Forall₂ (ReadsAs item) texts xs) (starts : ∀ t ∈ texts.head?, Starts close t)
    (rest : List Nat) :
    readSequence close item ([44].intercalate texts ++ close :: rest) = some (xs, rest) := by
  cases items with
  | nil =>
    rw [readSequence, List.intercalate_nil, List.nil_append, skip_cons mark.blank]
    dsimp only
    rw [if_pos rfl]
  | @cons text x texts xs first others =>
    obtain ⟨p, more, whole, blank, other⟩ := starts text rfl
    have read := readItems_flatMap mark first others rest
    rw [intercalate_cons, List.append_assoc]
    rw [whole, List.cons_append] at read ⊢
    rw [readSequence, skip_cons blank]
    dsimp only
    rw [if_neg other, read]

end Sequence

theorem readsAs_array {depth : Nat} {vs : List Json} {texts : List (List Nat)}
    (items : List.Forall₂ (ReadsAs (readValue depth)) texts vs)
    (starts : ∀ t ∈ texts.head?, Starts 93 t) :
    ReadsAs (readValue (depth + 1)) (91 :: ([44].intercalate texts ++ [93])) (.array vs) := by
  intro rest _
  rw [List.cons_append, List.append_assoc, List.singleton_append, readValue, skip_cons (by decide)]
  dsimp only
  rw [if_neg (by decide), if_pos rfl,
    readSequence_intercalate ⟨by decide, by decide, by decide⟩ items starts]
  rfl

theorem readsAs_object {depth : Nat} {vs : List (List Nat × Json)} {texts : List (List Nat)}
    (members : List.Forall₂ (ReadsAs (readMember (readValue depth))) texts vs)
    (starts : ∀ t ∈ texts.head?, Starts 125 t) :
    ReadsAs (readValue (depth + 1)) (123 :: ([44].intercalate texts ++ [125])) (.object vs) := by
  intro rest _
  rw [List.cons_append, List.append_assoc, List.singleton_append, readValue, skip_cons (by decide)]
  dsimp only
  rw [if_neg (by decide), if_neg (by decide), if_pos rfl,
    readSequence_intercalate ⟨by decide, by decide, by decide⟩ members starts]
  rfl

theorem readMark_cons {mark : Nat} (h : isBlank mark = false) (rest : List Nat) :
    readMark mark (mark :: rest) = some rest := by
  rw [readMark, skip_cons h]
  exact if_pos rfl

/-- A plain key, a colon and a value are read as a member. -/
theorem readsAs_member {value : List Nat → Option (Json × List Nat)} {key text : List Nat}
    {v : Json} (plain : ∀ p ∈ key, 32 ≤ p ∧ p ≠ 34 ∧ p ≠ 92) (read : ReadsAs value text v) :
    ReadsAs (readMember value) (34 :: (key ++ 34 :: 58 :: text)) (key, v) := by
  intro rest follows
  rw [List.cons_append, List.append_assoc, List.cons_append, List.cons_append, readMember,
    readMark_cons (by decide), Option.bind_eq_bind, Option.bind_some, readString_append plain]
  simp only [Option.bind_eq_bind, Option.bind_some]
  rw [readMark_cons (by decide), Option.bind_some, read rest follows, Option.bind_some]

/-- A text that begins with a value and goes on with blanks only is read as that value. -/
theorem ofText?_eq {text : Bytes} {points blanks : List Nat} {v : Json}
    (spelled : text.points? = some (points ++ blanks))
    (read : ReadsAs (readValue (points ++ blanks).length) points v) (follows : Follows blanks)
    (ends : skip blanks = []) : ofText? text = some v := by
  rw [ofText?, spelled]
  dsimp only
  rw [read blanks follows]
  dsimp only
  rw [ends]
  rfl

example : ofText? (lit "[1,]") = none ∧ ofText? (lit "[1 2]") = none ∧
    ofText? (lit "[01]") = none := by
  decide +kernel

end Json

end BitCalculus
