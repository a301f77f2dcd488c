import Mathlib
import BitCalculus.CommandLine.Run
import BitCalculus.Proofs.Source.Lines

/-!
# Programs from several texts

A program may be spread over files or over the commands of a call. Its texts are joined with a line
feed between neighbours, so its tokens are those of the texts one after another: no token is lost,
none grows together with the next one or falls into a comment, and lines go on counting.
-/

namespace BitCalculus

/-! ### Texts below one another -/

/-- The tokens of a text without its end. -/
def ownTokens (source text : Bytes) : List Token :=
  (tokenize source text).filter fun t ↦ t.kind ≠ .endOfText

/-- The tokens of texts below one another, of which the first stands below `n` lines. Each text has
its own tokens, moved down by the lines above it, and only the last one keeps its end. -/
def stackedTokens (source : Bytes) (n : Nat) : List Bytes → List Token
  | [] => []
  | [text] => (tokenize source text).map (Token.lower n)
  | text :: next :: rest =>
    (ownTokens source text).map (Token.lower n) ++
      stackedTokens source (n + (1 + text.count 10)) (next :: rest)

theorem ownTokens_eq (source text : Bytes) :
    ownTokens source text = programTokens (tokenize source text) := by
  obtain ⟨last, ends, scanned⟩ := exists_end source 1 0 text.glyphs
  have unended : ∀ t ∈ programTokens (tokenize source text), t.kind ≠ .endOfText := by
    intro t ht
    simpa using List.mem_takeWhile_imp ht
  rw [← tokenize] at scanned
  rw [ownTokens]
  conv_lhs => rw [scanned]
  rw [List.filter_append, List.filter_eq_self.mpr (by simpa using unended)]
  simp [ends]

theorem Token.lower_add (n m : Nat) (t : Token) : (t.lower m).lower n = t.lower (n + m) := by
  simp only [lower, Nat.cast_add]
  congr 2
  omega

/-- Two texts below one another. -/
theorem tokenize_stack (source text more : Bytes) :
    tokenize source (text ++ 10 :: more) =
      ownTokens source text ++ (tokenize source more).map (Token.lower (1 + text.count 10)) := by
  rw [tokenize_append_lineFeed, ownTokens_eq]

theorem tokenize_join {texts : List Bytes} (h : texts ≠ []) (source : Bytes) (n : Nat) :
    (tokenize source (Bytes.join [10] texts)).map (Token.lower n) =
      stackedTokens source n texts := by
  fun_induction stackedTokens source n texts with
  | case1 n => exact absurd rfl h
  | case2 n text => rfl
  | case3 n text next rest ih =>
    rw [← ih (by simp), Bytes.join, List.append_assoc, List.singleton_append, tokenize_stack,
      List.map_append, List.map_map]
    congr 2
    funext t
    exact Token.lower_add n _ t

/-- Texts that are joined have the tokens of the texts below one another. -/
theorem tokenize_join_eq {texts : List Bytes} (h : texts ≠ []) (source : Bytes) :
    tokenize source (Bytes.join [10] texts) = stackedTokens source 0 texts := by
  have same : Token.lower 0 = id := by
    funext t
    simp [Token.lower]
  rw [← tokenize_join h, same, List.map_id]

/-! ### Loading -/

namespace Sources

theorem join_joined (before text : Bytes) (texts : List Bytes) :
    Bytes.join [10] ((before ++ [10] ++ text) :: texts) =
      Bytes.join [10] (before :: text :: texts) := by
  cases texts <;> simp [Bytes.join]

section Loads

variable [Decoders]

/-- Loading the paths one after another gives the texts. -/
inductive Loads (limit : Int) : Sources → List Bytes → List Bytes → Prop
  | nil (s : Sources) : Loads limit s [] []
  | cons {s s' : Sources} {path text : Bytes} {paths texts : List Bytes}
      (first : s.load path limit = (.ok text, s')) (rest : Loads limit s' paths texts) :
      Loads limit s (path :: paths) (text :: texts)

theorem Loads.length_eq {limit : Int} {s : Sources} {paths texts : List Bytes}
    (h : Loads limit s paths texts) : texts.length = paths.length := by
  induction h with
  | nil s => rfl
  | cons first rest ih => rw [List.length_cons, List.length_cons, ih]

/-- What loading a list of paths does with the first of them. -/
theorem exists_of_loadFrom_cons [SizeUnits] {limit : Int} {soFar : Option Bytes} {s : Sources}
    {path text : Bytes} {paths : List Bytes}
    (h : (loadFrom limit soFar s (path :: paths)).2.1 = .ok text) :
    ∃ part s', s.load path limit = (.ok part, s') ∧
      (loadFrom limit (some (Bytes.join [10] (soFar.toList ++ [part]))) s' paths).2.1 =
        .ok text := by
  rw [loadFrom] at h
  split at h
  · cases h
  · next part s' loaded =>
    refine ⟨part, s', loaded, ?_⟩
    cases soFar
    all_goals
      dsimp only at h
      split at h
      · cases h
      · exact h

/-- Texts that are loaded are those of the paths, joined to what was loaded before. -/
theorem loads_of_loadFrom [SizeUnits] {limit : Int} {soFar : Option Bytes} {s : Sources}
    {paths : List Bytes} {text : Bytes} (h : (loadFrom limit soFar s paths).2.1 = .ok text) :
    ∃ texts, Loads limit s paths texts ∧ text = Bytes.join [10] (soFar.toList ++ texts) := by
  induction paths generalizing soFar s with
  | nil =>
    cases h
    refine ⟨[], .nil _, ?_⟩
    cases soFar <;> rfl
  | cons path paths ih =>
    obtain ⟨part, s', loaded, rest⟩ := exists_of_loadFrom_cons h
    obtain ⟨texts, loads, joined⟩ := ih rest
    refine ⟨part :: texts, .cons loaded loads, joined.trans ?_⟩
    cases soFar with
    | none => rfl
    | some before => exact join_joined before part texts

end Loads

end Sources

/-- What stands below a line feed has the tokens that it has alone, moved down, and so have texts
that are joined. Hence the tokens of a program that is loaded from files, from the standard input or
from the commands of a call are the tokens of these texts below one another. -/
theorem joining_keeps_tokens [Decoders] [SizeUnits] :
    (∀ source text more : Bytes, tokenize source (text ++ 10 :: more) =
        ownTokens source text ++ (tokenize source more).map (Token.lower (1 + text.count 10))) ∧
      (∀ (source : Bytes) (texts : List Bytes), texts ≠ [] →
        tokenize source (Bytes.join [10] texts) = stackedTokens source 0 texts) ∧
      (∀ (s : Sources) (paths : List Bytes) (limit : Int) (text : Bytes),
        paths ≠ [] → (s.loadAll paths limit).2.1 = .ok text →
        ∃ texts, s.Loads limit paths texts ∧
          ∀ source, tokenize source text = stackedTokens source 0 texts) ∧
      ∀ (o : Options) (limit : Int) (level : LogLevel) (shell : Shell),
        o.commands ≠ [] → ∃ name text, CommandLine.loadProgram o limit level shell =
          (.ok (name, text), shell) ∧
          ∀ source, tokenize source text = stackedTokens source 0 o.commands := by
  refine ⟨tokenize_stack, fun source texts h ↦ tokenize_join_eq h source, ?_, ?_⟩
  · intro s paths limit text nonempty loaded
    obtain ⟨texts, loads, joined⟩ := Sources.loads_of_loadFrom loaded
    refine ⟨texts, loads, fun source ↦ ?_⟩
    have hl := loads.length_eq
    rw [joined]
    exact tokenize_join_eq (by simpa [← List.length_eq_zero_iff, hl] using nonempty) source
  · intro o limit level shell nonempty
    refine ⟨lit "command line", Bytes.join [10] o.commands, ?_, tokenize_join_eq nonempty⟩
    simp [CommandLine.loadProgram, nonempty]

/-- The first file ends in the middle of an encoding, the second begins with a comment and ends in
one, and a third stands below. Three commands are joined as well. -/
theorem joining_keeps_tokens_cut :
    ∃ (s : Sources) (paths texts : List Bytes) (text : Bytes),
      s.files.entries = [([lit "a"], .file (lit "f\ng" ++ [0xE2, 0x82])),
        ([lit "b"], .file (lit "# (\n(x\n# y")), ([lit "c"], .file (lit "z)"))] ∧
      paths = [lit "a", lit "b", lit "c"] ∧ (s.loadAll paths 100).2.1 = .ok text ∧
      s.Loads 100 paths texts ∧ tokenize (lit "t") text = stackedTokens (lit "t") 0 texts ∧
      (tokenize (lit "t") text).map (fun t ↦ (t.text, t.location.line, t.location.column)) =
        [(lit "f", 1, 1), (lit "g" ++ [0xE2, 0x82], 2, 1), (lit "(", 4, 1), (lit "x", 4, 2),
          (lit "z", 6, 1), (lit ")", 6, 2), ([], 6, 3)] ∧
      ∀ (limit : Int) (level : LogLevel) (shell : Shell), ∃ name text,
        CommandLine.loadProgram { commands := [lit "#", lit "(x", lit "y)"] } limit level shell =
          (.ok (name, text), shell) ∧
        tokenize name text = stackedTokens name 0 [lit "#", lit "(x", lit "y)"] := by
  obtain ⟨-, -, files, commands⟩ := joining_keeps_tokens
  obtain ⟨s, text, entries, loaded, tokens⟩ : ∃ (s : Sources) (text : Bytes),
      s.files.entries = [([lit "a"], .file (lit "f\ng" ++ [0xE2, 0x82])),
        ([lit "b"], .file (lit "# (\n(x\n# y")), ([lit "c"], .file (lit "z)"))] ∧
      (s.loadAll [lit "a", lit "b", lit "c"] 100).2.1 = .ok text ∧
      (tokenize (lit "t") text).map (fun t ↦ (t.text, t.location.line, t.location.column)) =
        [(lit "f", 1, 1), (lit "g" ++ [0xE2, 0x82], 2, 1), (lit "(", 4, 1), (lit "x", 4, 2),
          (lit "z", 6, 1), (lit ")", 6, 2), ([], 6, 3)] :=
    ⟨⟨⟨_⟩, []⟩, _, rfl, rfl, by cbv⟩
  obtain ⟨texts, loads, stacked⟩ := files s _ _ _ (by simp) loaded
  refine ⟨s, _, texts, text, entries, rfl, loaded, loads, stacked _, tokens, ?_⟩
  intro limit level shell
  obtain ⟨name, text, loaded, stacked⟩ := commands
    { commands := [lit "#", lit "(x", lit "y)"] } limit level shell (by simp)
  exact ⟨name, text, loaded, stacked name⟩

end BitCalculus
