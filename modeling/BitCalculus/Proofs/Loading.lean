import Mathlib
import BitCalculus.Proofs.Archive
import BitCalculus.Proofs.Sources

/-!
# Texts are loaded whole or refused

A text is loaded up to one byte more than its limit allows, so a text that is too long is seen to be
too long and refused, and any other one is loaded whole. The same holds of texts that are joined.
The largest limit is an exception: one byte more does not fit into a word, so nothing is loaded at
all.

A compressed file stands for the text that it holds as an archive. That decoders deliver this text
is a hypothesis. Without it a text that is loaded is still everything that the decoder gives.
-/

namespace BitCalculus

namespace Sources

/-! ### What there is to load -/

/-- The text that stands at a path: what is left of the standard input, the content of a file, or
the text that the file holds as an archive of the format its name tells. -/
inductive Stands (holds : Archive → Bytes → Bytes → Prop) (s : Sources) (path : Bytes) :
    Bytes → Prop
  | input (hp : path = inputPath) : Stands holds s path s.input
  | plain {text : Bytes} (hp : path ≠ inputPath)
      (stored : s.files.openEntry path = .ok (.file text)) (format : Archive.ofPath? path = none) : Stands holds s path text
  | archive {archive : Archive} {raw text : Bytes} (hp : path ≠ inputPath)
      (stored : s.files.openEntry path = .ok (.file raw))
      (format : Archive.ofPath? path = some archive) (held : holds archive raw text) :
      Stands holds s path text

/-- A path gives a text: what is left of the standard input, or everything that can be read of a
file, up to its end. -/
inductive Gives [Decoders] (s : Sources) (path : Bytes) : Bytes → Prop
  | input (hp : path = inputPath) : Gives s path s.input
  | file {text : Bytes} (hp : path ≠ inputPath)
      (opened : openText s.files path = .ok ⟨text, none⟩) : Gives s path text

/-- Decoders that deliver the texts of archives give every text that stands at a path. -/
theorem Stands.gives [Decoders] {holds : Archive → Bytes → Bytes → Prop}
    (delivers : Decoders.Deliver holds) {s : Sources} {path text : Bytes}
    (stands : s.Stands holds path text) : s.Gives path text := by
  cases stands with
  | input hp => exact .input hp
  | plain hp stored format =>
    refine .file hp ?_
    rw [openText, stored, format]
    rfl
  | archive hp stored format held =>
    refine .file hp ?_
    rw [openText, stored, format]
    exact delivers _ _ _ held

/-- The sources once the text at a path was read to its end. -/
def readOut (s : Sources) (path : Bytes) : Sources :=
  if path = inputPath then { s with input := [] } else s

/-- The paths have the texts, one after another, where each text is read to its end before the next
one is looked for. -/
inductive InTurn (has : Sources → Bytes → Bytes → Prop) :
    Sources → List Bytes → List Bytes → Prop
  | nil (s : Sources) : InTurn has s [] []
  | cons {s : Sources} {path text : Bytes} {paths texts : List Bytes} (first : has s path text)
      (rest : InTurn has (s.readOut path) paths texts) :
      InTurn has s (path :: paths) (text :: texts)

theorem InTurn.imp {has has' : Sources → Bytes → Bytes → Prop}
    (h : ∀ s path text, has s path text → has' s path text) {s : Sources}
    {paths texts : List Bytes} (inTurn : s.InTurn has paths texts) : s.InTurn has' paths texts := by
  induction inTurn with
  | nil s => exact .nil s
  | cons first rest ih => exact .cons (h _ _ _ first) ih

/-- The limit allows a text of the given length; a limit that is not positive allows any. -/
def Allows (limit : Int) (length : Nat) : Prop :=
  limit ≤ 0 ∨ length ≤ limit

instance (limit : Int) (length : Nat) : Decidable (Allows limit length) :=
  inferInstanceAs (Decidable (_ ∨ _))

theorem Allows.of_le {limit : Int} {n m : Nat} (h : Allows limit m) (le : n ≤ m) :
    Allows limit n := by
  unfold Allows at h ⊢
  omega

theorem not_allows_iff {limit : Int} {n : Nat} : ¬ Allows limit n ↔ 0 < limit ∧ limit < n := by
  unfold Allows
  omega

theorem Allows.not_exceeds {limit : Int} {n : Nat} (h : Allows limit n) :
    ¬ (0 < limit ∧ limit < n) :=
  fun exceeds ↦ not_allows_iff.mpr exceeds h

/-- The largest limit. -/
def largestLimit : Int := wordHalf - 1

/-! ### One text -/

section Text

variable {limit : Int} {text : Bytes}

theorem asked_of_nonpos (h : limit ≤ 0) : asked limit = none := by
  rw [asked, if_neg (by omega)]

/-- Below the largest limit one byte more than allowed is asked for. -/
theorem asked_of_pos (h : 0 < limit) (small : limit < largestLimit) :
    asked limit = some (limit.toNat + 1) := by
  have fits : wrap64 (limit + 1) = limit + 1 := by
    unfold largestLimit at small
    rw [wrap64, Int.bmod_eq_of_le]
    · simp only [wordCount, wordHalf] at small ⊢
      omega
    · simp only [wordCount, wordHalf] at small ⊢
      omega
  rw [asked, if_pos h, fits]
  congr 1
  omega

/-- One byte more than the largest limit is less than nothing. -/
theorem asked_largestLimit : asked largestLimit = some 0 := by
  decide +kernel

/-- As much of a text as is asked for is the whole text if the limit allows it. -/
theorem take_of_allowed (h : 0 < limit) (allowed : Allows limit text.length) :
    text.take (limit.toNat + 1) = text ∧ text.drop (limit.toNat + 1) = [] := by
  have short : (text.length : Int) ≤ limit := allowed.resolve_left (by omega)
  exact ⟨List.take_of_length_le (by omega), List.drop_eq_nil_of_le (by omega)⟩

theorem within_of_allowed (allowed : Allows limit text.length) (path : Bytes) :
    within limit path text = .ok text := by
  rw [within, if_neg allowed.not_exceeds]

/-- As much of a text as is asked for is too long if the whole text is. -/
theorem within_of_refused (refused : ¬ Allows limit text.length) (path : Bytes) :
    within limit path (text.take (limit.toNat + 1)) = .error (.tooLarge path limit.toNat) := by
  obtain ⟨positive, long⟩ := not_allows_iff.mp refused
  have cut : limit < (text.take (limit.toNat + 1)).length := by
    rw [List.length_take]
    omega
  rw [within, if_pos ⟨positive, cut⟩]

theorem fetch_of_nonpos (h : limit ≤ 0) (content : Content) :
    fetch limit content = content.whole := by
  simp only [fetch, asked_of_nonpos h]

/-- As much of a content as is asked for is too long, or it is everything. -/
theorem fetch_of_pos (h : 0 < limit) (small : limit < largestLimit) (content : Content) :
    fetch limit content =
      if limit < content.bytes.length then .ok (content.bytes.take (limit.toNat + 1))
      else content.whole := by
  simp only [fetch, asked_of_pos h small]
  exact if_congr (by omega) rfl rfl

theorem whole_eq_ok_iff {content : Content} :
    content.whole = .ok text ↔ content = ⟨text, none⟩ := by
  obtain ⟨bytes, failure⟩ := content
  cases failure <;> simp [Content.whole]

/-- A text that passes the check is the text that was checked, and the limit allows it. -/
theorem within_eq_ok_iff {loaded : Bytes} :
    within limit path text = .ok loaded ↔ Allows limit text.length ∧ loaded = text := by
  by_cases allowed : Allows limit text.length
  · simp [within_of_allowed allowed, allowed, eq_comm]
  · simp [within, not_allows_iff.mp allowed, allowed]

/-- A text that the limit allows is fetched only if it is everything that can be read. -/
theorem whole_of_fetch (small : limit < largestLimit) {content : Content}
    (fetched : fetch limit content = .ok text) (allowed : Allows limit text.length) :
    content = ⟨text, none⟩ := by
  by_cases positive : 0 < limit
  · rw [fetch_of_pos positive small] at fetched
    split at fetched
    · next long =>
      cases fetched
      refine absurd allowed (not_allows_iff.mpr ⟨positive, ?_⟩)
      rw [List.length_take]
      omega
    · exact whole_eq_ok_iff.mp fetched
  · rw [fetch_of_nonpos (by omega)] at fetched
    exact whole_eq_ok_iff.mp fetched

variable [Decoders] {s : Sources} {path : Bytes}

/-- What is fetched of a file is checked against the limit. -/
theorem load_of_fetch (hp : path ≠ inputPath) {content : Content}
    (opened : openText s.files path = .ok content) {fetched : Bytes}
    (h : fetch limit content = .ok fetched) :
    s.load path limit = (within limit path fetched, s) := by
  simp only [load, if_neg hp, opened, h]

/-- A text that the limit allows is loaded whole. -/
theorem load_of_allowed (small : limit < largestLimit) (gives : s.Gives path text)
    (allowed : Allows limit text.length) :
    s.load path limit = (.ok text, s.readOut path) := by
  cases gives with
  | input hp =>
    rw [load, readOut, if_pos hp, if_pos hp]
    by_cases h : 0 < limit
    · obtain ⟨taken, dropped⟩ := take_of_allowed h allowed
      rw [asked_of_pos h small]
      dsimp only
      rw [taken, dropped, within_of_allowed allowed]
    · rw [asked_of_nonpos (by omega)]
  | file hp opened =>
    have fetched : fetch limit ⟨text, none⟩ = .ok text := by
      by_cases h : 0 < limit
      · have short : (text.length : Int) ≤ limit := allowed.resolve_left (by omega)
        exact (fetch_of_pos h small _).trans (if_neg short.not_gt)
      · exact fetch_of_nonpos (by omega) _
    rw [load_of_fetch hp opened fetched, readOut, if_neg hp, within_of_allowed allowed]

/-- A text that the limit does not allow is refused. -/
theorem load_of_refused (small : limit < largestLimit) (gives : s.Gives path text)
    (refused : ¬ Allows limit text.length) :
    (s.load path limit).1 = .error (.tooLarge path limit.toNat) := by
  obtain ⟨positive, long⟩ := not_allows_iff.mp refused
  cases gives with
  | input hp =>
    rw [load, if_pos hp, asked_of_pos positive small]
    exact within_of_refused refused path
  | file hp opened =>
    have fetched := (fetch_of_pos positive small ⟨text, none⟩).trans (if_pos long)
    rw [load_of_fetch hp opened fetched]
    exact within_of_refused refused path

/-- Under the largest limit nothing of a text is loaded. -/
theorem load_largestLimit (gives : s.Gives path text) :
    s.load path largestLimit = (.ok [], s) := by
  cases gives with
  | input hp =>
    rw [load, if_pos hp, asked_largestLimit]
    rfl
  | file hp opened =>
    have fetched : fetch largestLimit ⟨text, none⟩ = .ok [] := by
      simp only [fetch, asked_largestLimit]
      rfl
    rw [load_of_fetch hp opened fetched]
    rfl

/-- A text that is loaded is everything that its path gives. -/
theorem gives_of_load (small : limit < largestLimit)
    (loaded : (s.load path limit).1 = .ok text) : s.Gives path text := by
  by_cases hp : path = inputPath
  · by_cases allowed : Allows limit s.input.length
    · rw [load_of_allowed small (.input hp) allowed] at loaded
      cases loaded
      exact .input hp
    · rw [load_of_refused small (.input hp) allowed] at loaded
      cases loaded
  · simp only [load, if_neg hp] at loaded
    split at loaded
    · cases loaded
    · next content opened =>
      split at loaded
      · cases loaded
      · next fetched asked =>
        obtain ⟨allowed, rfl⟩ := within_eq_ok_iff.mp loaded
        rw [whole_of_fetch small asked allowed] at opened
        exact .file hp opened

/-- What is left of the sources once a text was loaded. -/
theorem readOut_of_load (small : limit < largestLimit) {s' : Sources}
    (loaded : s.load path limit = (.ok text, s')) : s' = s.readOut path := by
  have result : (s.load path limit).1 = .ok text := by rw [loaded]
  have gives := gives_of_load small result
  by_cases allowed : Allows limit text.length
  · rw [load_of_allowed small gives allowed] at loaded
    cases loaded
    rfl
  · rw [load_of_refused small gives allowed] at result
    cases result

/-- Texts that are loaded one after another are everything that their paths give. -/
theorem Loads.gives (small : limit < largestLimit) {paths texts : List Bytes}
    (loads : s.Loads limit paths texts) : s.InTurn Gives paths texts := by
  induction loads with
  | nil s => exact .nil s
  | cons first rest ih =>
    rw [readOut_of_load small first] at ih
    exact .cons (gives_of_load small (by rw [first])) ih

end Text

/-! ### Texts together -/

theorem length_le_join (before : Option Bytes) (text : Bytes) :
    text.length ≤ (Bytes.join [10] (before.toList ++ [text])).length := by
  cases before with
  | none => simp [Bytes.join]
  | some before =>
    simp only [Option.toList, List.cons_append, List.nil_append, Bytes.join, List.length_append]
    omega

/-- Texts get no shorter when more are joined to them. -/
theorem length_join_le (before : Option Bytes) (text : Bytes) (texts : List Bytes) :
    (Bytes.join [10] (before.toList ++ [text])).length ≤
      (Bytes.join [10] (before.toList ++ text :: texts)).length := by
  cases before with
  | none => cases texts <;> simp [Bytes.join]
  | some before => cases texts <;> simp [Bytes.join]

theorem join_soFar (before : Option Bytes) (text : Bytes) (texts : List Bytes) :
    Bytes.join [10] ((some (Bytes.join [10] (before.toList ++ [text]))).toList ++ texts) =
      Bytes.join [10] (before.toList ++ text :: texts) := by
  cases before with
  | none => rfl
  | some before => exact join_joined before text texts

/-- The error says which limit the texts exceed, alone or together. -/
def ExceedsLimit (limit : Int) (paths : List Bytes) (e : LoadError) : Prop :=
  (∃ path ∈ paths, e = .tooLarge path limit.toNat) ∨ e = .tooLargeTogether limit.toNat

section Joined

variable [Decoders] [SizeUnits] {limit : Int} {soFar : Option Bytes} {s s' : Sources}
variable {path text : Bytes} {paths : List Bytes}

theorem loadFrom_of_allowed (h : s.load path limit = (.ok text, s'))
    (allowed : Allows limit (Bytes.join [10] (soFar.toList ++ [text])).length) :
    (loadFrom limit soFar s (path :: paths)).2.1 =
      (loadFrom limit (some (Bytes.join [10] (soFar.toList ++ [text]))) s' paths).2.1 := by
  rw [loadFrom, h]
  cases soFar
  all_goals
    dsimp only
    split
    · next exceeds => exact absurd exceeds allowed.not_exceeds
    · rfl

theorem loadFrom_of_refused (h : s.load path limit = (.ok text, s'))
    (refused : ¬ Allows limit (Bytes.join [10] (soFar.toList ++ [text])).length) :
    (loadFrom limit soFar s (path :: paths)).2.1 = .error (.tooLargeTogether limit.toNat) := by
  have exceeds := not_allows_iff.mp refused
  rw [loadFrom, h]
  cases soFar
  all_goals
    dsimp only
    split
    · rfl
    · next fits => exact absurd exceeds fits

/-- Texts behind what was loaded so far are loaded whole or refused. -/
theorem loadFrom_whole (small : limit < largestLimit) {texts : List Bytes}
    (gives : s.InTurn Gives paths texts) (soFar : Option Bytes)
    (start : Allows limit (Bytes.join [10] soFar.toList).length) :
    (Allows limit (Bytes.join [10] (soFar.toList ++ texts)).length →
        (loadFrom limit soFar s paths).2.1 = .ok (Bytes.join [10] (soFar.toList ++ texts))) ∧
      (¬ Allows limit (Bytes.join [10] (soFar.toList ++ texts)).length →
        ∃ e, (loadFrom limit soFar s paths).2.1 = .error e ∧ ExceedsLimit limit paths e) := by
  induction gives generalizing soFar with
  | nil s =>
    rw [List.append_nil]
    refine ⟨fun _ ↦ ?_, fun refused ↦ absurd start refused⟩
    cases soFar <;> rfl
  | @cons s path text paths texts first rest ih =>
    have whole := length_join_le soFar text texts
    by_cases alone : Allows limit text.length
    · have loaded := load_of_allowed small first alone
      by_cases together : Allows limit (Bytes.join [10] (soFar.toList ++ [text])).length
      · rw [loadFrom_of_allowed loaded together]
        have next := ih (some (Bytes.join [10] (soFar.toList ++ [text]))) together
        rw [join_soFar] at next
        refine ⟨next.1, fun refused ↦ ?_⟩
        obtain ⟨e, he, exceeds⟩ := next.2 refused
        refine ⟨e, he, exceeds.imp_left ?_⟩
        rintro ⟨path', hp, rfl⟩
        exact ⟨path', List.mem_cons_of_mem _ hp, rfl⟩
      · rw [loadFrom_of_refused loaded together]
        exact ⟨fun allowed ↦ absurd (allowed.of_le whole) together, fun _ ↦ ⟨_, rfl, .inr rfl⟩⟩
    · have longer := length_le_join soFar text
      refine ⟨fun allowed ↦ absurd (allowed.of_le (longer.trans whole)) alone, fun _ ↦ ?_⟩
      refine ⟨.tooLarge path limit.toNat, ?_, .inl ⟨path, List.mem_cons_self, rfl⟩⟩
      rcases hr : s.load path limit with ⟨result, s'⟩
      have refused := load_of_refused small first alone
      rw [hr] at refused
      cases refused
      rw [loadFrom, hr]

/-- Texts are loaded whole or refused. -/
theorem loadAll_whole (small : limit < largestLimit) {texts : List Bytes}
    (gives : s.InTurn Gives paths texts) :
    (Allows limit (Bytes.join [10] texts).length →
        (s.loadAll paths limit).2.1 = .ok (Bytes.join [10] texts)) ∧
      (¬ Allows limit (Bytes.join [10] texts).length →
        ∃ e, (s.loadAll paths limit).2.1 = .error e ∧ ExceedsLimit limit paths e) := by
  have start : Allows limit (Bytes.join [10] (none : Option Bytes).toList).length := by
    simp only [Allows, Option.toList, Bytes.join, List.length_nil]
    omega
  exact loadFrom_whole small gives none start

/-- Texts that are loaded together are everything that their paths give, joined with line feeds. -/
theorem gives_of_loadAll (small : limit < largestLimit)
    (loaded : (s.loadAll paths limit).2.1 = .ok text) :
    ∃ texts, s.InTurn Gives paths texts ∧ text = Bytes.join [10] texts := by
  obtain ⟨texts, loads, joined⟩ := loads_of_loadFrom loaded
  exact ⟨texts, loads.gives small, joined⟩

end Joined

end Sources

/-- A program from files has the paths of the files for its name. -/
theorem CommandLine.loadProgram_files [Decoders] [SizeUnits] {o : Options}
    (commands : o.commands = []) (files : o.files ≠ []) (limit : Int) (level : LogLevel)
    (shell : Shell) :
    (loadProgram o limit level shell).1 =
      (Sources.loadAll { files := shell.files, input := shell.input } o.files limit).2.1.map
        (Bytes.join (lit "+") o.files, ·) := by
  simp [loadProgram, commands, files, Sources.nameOf]

open Sources (Allows ExceedsLimit Gives Stands largestLimit)

/-- Let decoders deliver what archives hold. Below the largest limit: a text that stands at a path
is loaded whole if the limit allows it, and refused otherwise; texts that stand at paths one after
another are loaded as all of them, joined with line feeds, if the limit allows this text, and
refused otherwise; a program from files then has the paths joined with plus signs for its name; and
whatever is loaded is everything that the paths give, also if they give something else. Under the
largest limit, no text at all is returned in place of any text. -/
theorem texts_whole_or_refused [Decoders] [SizeUnits] {holds : Archive → Bytes → Bytes → Prop}
    (delivers : Decoders.Deliver holds) (s : Sources) (limit : Int) :
    (limit < largestLimit → ∀ path text, s.Stands holds path text →
        (Allows limit text.length → (s.load path limit).1 = .ok text) ∧
          (¬ Allows limit text.length →
            (s.load path limit).1 = .error (.tooLarge path limit.toNat))) ∧
      (limit < largestLimit → ∀ paths texts, s.InTurn (Stands holds) paths texts →
        (Allows limit (Bytes.join [10] texts).length →
            (s.loadAll paths limit).2.1 = .ok (Bytes.join [10] texts)) ∧
          (¬ Allows limit (Bytes.join [10] texts).length →
            ∃ e, (s.loadAll paths limit).2.1 = .error e ∧ ExceedsLimit limit paths e)) ∧
      (limit < largestLimit → ∀ (o : Options) (level : LogLevel) (shell : Shell) texts,
        shell.files = s.files → shell.input = s.input → o.commands = [] → o.files ≠ [] →
        s.InTurn (Stands holds) o.files texts →
        (Allows limit (Bytes.join [10] texts).length →
            (CommandLine.loadProgram o limit level shell).1 =
              .ok (Bytes.join (lit "+") o.files, Bytes.join [10] texts)) ∧
          (¬ Allows limit (Bytes.join [10] texts).length →
            ∃ e, (CommandLine.loadProgram o limit level shell).1 = .error e ∧
              ExceedsLimit limit o.files e)) ∧
      (limit < largestLimit →
        (∀ path text, (s.load path limit).1 = .ok text → s.Gives path text) ∧
          ∀ paths text, (s.loadAll paths limit).2.1 = .ok text →
            ∃ texts, s.InTurn Gives paths texts ∧ text = Bytes.join [10] texts) ∧
      ∀ path text, s.Stands holds path text →
        (s.load path largestLimit).1 = .ok [] ∧ (s.loadAll [path] largestLimit).2.1 = .ok [] := by
  have give {paths texts : List Bytes} (inTurn : s.InTurn (Stands holds) paths texts) :
      s.InTurn Gives paths texts :=
    inTurn.imp fun _ _ _ stands ↦ stands.gives delivers
  refine ⟨?_, fun small paths texts inTurn ↦ Sources.loadAll_whole small (give inTurn), ?_,
    fun small ↦ ⟨fun path text ↦ Sources.gives_of_load small,
      fun paths text ↦ Sources.gives_of_loadAll small⟩, ?_⟩
  · intro small path text stands
    have gives := stands.gives delivers
    refine ⟨fun allowed ↦ ?_, Sources.load_of_refused small gives⟩
    rw [Sources.load_of_allowed small gives allowed]
  · intro small o level shell texts sameFiles sameInput commands files inTurn
    obtain ⟨whole, refused⟩ := Sources.loadAll_whole small (give inTurn)
    rw [CommandLine.loadProgram_files commands files, sameFiles, sameInput]
    refine ⟨fun allowed ↦ ?_, fun exceeds ↦ ?_⟩
    · rw [whole allowed]
      rfl
    · obtain ⟨e, he, exceeds⟩ := refused exceeds
      exact ⟨e, by rw [he]; rfl, exceeds⟩
  · intro path text stands
    have loaded := Sources.load_largestLimit (stands.gives delivers)
    refine ⟨by rw [loaded], ?_⟩
    rw [Sources.loadAll, Sources.loadFrom_of_allowed loaded (.inr (by decide))]
    rfl

/-- A plain file, an archive in stored blocks and the standard input have seven bytes together,
which a limit of seven allows and one of six does not; an archive of a text that is too long alone
is refused as such. -/
theorem texts_whole_or_refused_boundary :
    ∃ s : Sources,
      s.files.entries = [([lit "a"], .file (lit "f")), ([lit "b.gz"], .packed (lit "(x)"))] ∧
      s.input = lit "y" ∧
      s.InTurn (Stands Gzip.Stored) [lit "a", lit "b.gz", lit "-"]
        [lit "f", lit "(x)", lit "y"] ∧
      (s.loadAll [lit "a", lit "b.gz", lit "-"] 7).2.1 = .ok (lit "f\n(x)\ny") ∧
      (∃ e, (s.loadAll [lit "a", lit "b.gz", lit "-"] 6).2.1 = .error e ∧
        ExceedsLimit 6 [lit "a", lit "b.gz", lit "-"] e) ∧
      (s.load (lit "b.gz") 2).1 = .error (.tooLarge (lit "b.gz") 2) ∧
      ∀ (level : LogLevel) (shell : Shell), shell.files = s.files → shell.input = s.input →
        (CommandLine.loadProgram { files := [lit "a", lit "b.gz", lit "-"] } (-1) level shell).1 =
          .ok (lit "a+b.gz+-", lit "f\n(x)\ny") := by
  obtain ⟨s, entries, input, archived, inTurn⟩ : ∃ s : Sources,
      s.files.entries = [([lit "a"], .file (lit "f")), ([lit "b.gz"], .packed (lit "(x)"))] ∧
      s.input = lit "y" ∧ s.Stands Gzip.Stored (lit "b.gz") (lit "(x)") ∧
      s.InTurn (Stands Gzip.Stored) [lit "a", lit "b.gz", lit "-"]
        [lit "f", lit "(x)", lit "y"] := by
    have packed (s : Sources)
        (stored : s.files.openEntry (lit "b.gz") = .ok (.file (Gzip.pack (lit "(x)")))) :
        s.Stands Gzip.Stored (lit "b.gz") (lit "(x)") :=
      .archive (by decide) stored (by decide) ⟨rfl, rfl⟩
    exact ⟨⟨⟨_⟩, _⟩, rfl, rfl, packed _ rfl, .cons (.plain (by decide) rfl (by decide))
      (.cons (packed _ rfl) (.cons (.input rfl) (.nil _)))⟩
  have whole (limit : Int) (small : limit < largestLimit) :=
    (texts_whole_or_refused Gzip.deliver_stored s limit).2.1 small _ _ inTurn
  refine ⟨s, entries, input, inTurn, ?_, ?_, ?_, ?_⟩
  · exact (whole 7 (by decide)).1 (.inr (by decide))
  · exact (whole 6 (by decide)).2 (by decide)
  · obtain ⟨alone, -⟩ := texts_whole_or_refused Gzip.deliver_stored s 2
    exact (alone (by decide) _ _ archived).2 (by decide)
  · intro level shell files typed
    obtain ⟨-, -, program, -⟩ := texts_whole_or_refused Gzip.deliver_stored s (-1)
    exact (program (by decide) { files := [lit "a", lit "b.gz", lit "-"] } level shell _ files typed
      rfl (by simp) inTurn).1 (.inl (by decide))

/-- Under the largest limit the only byte of a file is lost. -/
theorem text_lost_at_largestLimit :
    ∃ s : Sources, s.files.entries = [([lit "a"], .file (lit "x"))] ∧
      (∀ holds, s.Stands holds (lit "a") (lit "x")) ∧ Allows largestLimit (lit "x").length ∧
      (s.load (lit "a") largestLimit).1 = .ok [] ∧
      (s.loadAll [lit "a"] largestLimit).2.1 = .ok [] :=
  ⟨⟨⟨_⟩, []⟩, rfl, fun _ ↦ .plain (by decide) rfl (by decide), by decide, rfl, rfl⟩

end BitCalculus
