import BitCalculus.Archive
import BitCalculus.Fault
import BitCalculus.Files
import BitCalculus.Log
import BitCalculus.Number.Size

/-!
# Loading program texts

A program may be spread over several files, which are joined with a line feed between neighbours. A
limit holds for each text and for all of them together. Compressed files are known by their names
and stand for what their decoders make of them.
-/

namespace BitCalculus

/-- Why program texts cannot be loaded. -/
inductive LoadError where
  | unreadable (path reason : Bytes)
  | tooLarge (path : Bytes) (limit : Nat)
  | tooLargeTogether (limit : Nat)
deriving DecidableEq

/-- The report of texts that cannot be loaded. -/
def LoadError.message [SizeUnits] : LoadError → Bytes
  | unreadable path reason => lit "load " ++ path ++ lit ": " ++ reason
  | tooLarge path limit =>
    lit "load " ++ path ++ lit ": source exceeds " ++ SizeUnits.human limit
  | tooLargeTogether limit => lit "load: sources exceed " ++ SizeUnits.human limit

/-- What program texts are loaded from: the files, and the standard input as far as it was not read
yet. -/
structure Sources where
  files : Files := {}
  input : Bytes := []

/-- The bytes of a content up to its end, if that is reached. -/
def Content.whole (content : Content) : Except Bytes Bytes :=
  match content.failure with
  | none => .ok content.bytes
  | some reason => .error reason

namespace Sources

/-- The path that stands for the standard input. -/
def inputPath : Bytes := lit "-"

/-- What can be read of an entry at a path; of a folder nothing can be read. -/
def contentOf (path : Bytes) : FileEntry → Content
  | .file bytes => ⟨bytes, none⟩
  | .folder => ⟨[], some (Files.readMessage path)⟩

/-- Opens a program text. What cannot be opened is an error at once; what cannot be read is one only
if something of it is asked for. -/
def openText [Decoders] (files : Files) (path : Bytes) : Except Bytes Content :=
  match files.openEntry path with
  | .error e => .error (Files.openMessage path e)
  | .ok entry =>
    match Archive.ofPath? path with
    | none => .ok (contentOf path entry)
    | some archive => archive.decode (contentOf path entry)

/-- How many bytes of a text are asked for under a limit: one more than are allowed, as a signed
64-bit word. No limit asks for everything. -/
def asked (limit : Int) : Option Nat :=
  if 0 < limit then some (wrap64 (limit + 1)).toNat else none

/-- As much of a content as is asked for. That it fails later does not matter. -/
def fetch (limit : Int) (content : Content) : Except Bytes Bytes :=
  match asked limit with
  | none => content.whole
  | some n => if n ≤ content.bytes.length then .ok (content.bytes.take n) else content.whole

/-- Checks a text against the limit. -/
def within (limit : Int) (path text : Bytes) : Except LoadError Bytes :=
  if 0 < limit ∧ limit < text.length then .error (.tooLarge path limit.toNat) else .ok text

section Loading

variable [Decoders] [SizeUnits]

/-- Loads one program text. -/
def load (s : Sources) (path : Bytes) (limit : Int) : Except LoadError Bytes × Sources :=
  if path = inputPath then
    match asked limit with
    | none => (.ok s.input, { s with input := [] })
    | some n => (within limit path (s.input.take n), { s with input := s.input.drop n })
  else
    let result : Except LoadError Bytes :=
      match openText s.files path with
      | .error reason => .error (.unreadable path reason)
      | .ok content =>
        match fetch limit content with
        | .error reason => .error (.unreadable path reason)
        | .ok text => within limit path text
    (result, s)

/-- The report of a text that was loaded. -/
def loadedMessage (path text : Bytes) : Bytes :=
  lit "loaded " ++ path ++ lit " (" ++ SizeUnits.human text.length ++ lit ")"

/-- Loads the texts at the given paths behind what was loaded so far. The first list has a report
for each text that was loaded. -/
def loadFrom (limit : Int) (soFar : Option Bytes) (s : Sources) :
    List Bytes → List Bytes × Except LoadError Bytes × Sources
  | [] => ([], .ok (soFar.getD []), s)
  | path :: rest =>
    match s.load path limit with
    | (.error e, s) => ([], .error e, s)
    | (.ok text, s) =>
      let together := match soFar with
        | none => text
        | some before => before ++ [10] ++ text
      let report := loadedMessage path text
      if 0 < limit ∧ limit < together.length then
        ([report], .error (.tooLargeTogether limit.toNat), s)
      else
        let (reports, result) := loadFrom limit (some together) s rest
        (report :: reports, result)

/-- Loads program texts and joins them. -/
def loadAll (s : Sources) (paths : List Bytes) (limit : Int) :
    List Bytes × Except LoadError Bytes × Sources :=
  loadFrom limit none s paths

end Loading

/-- The name of a program that is loaded from the given paths. -/
def nameOf (paths : List Bytes) : Bytes :=
  Bytes.join (lit "+") paths

end Sources

end BitCalculus
