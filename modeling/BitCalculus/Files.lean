import BitCalculus.Archive

/-!
# Files

The files of a working directory as a value: a list of paths, each with a file or a folder. A folder
is also there if a file stands in it.
-/

namespace BitCalculus

/-- What a path leads to. -/
inductive FileEntry where
  | file (content : Bytes)
  | folder
deriving DecidableEq

/-- A file that holds an archive of the given content. -/
def FileEntry.packed (content : Bytes) : FileEntry :=
  .file (Gzip.pack content)

/-- Why a path cannot be used. -/
inductive FileError where
  | absent
  | notFolder
  | isFolder
  | longName
  | badName
deriving DecidableEq

/-- The wording of a file error. -/
def FileError.text : FileError → Bytes
  | absent => lit "no such file or directory"
  | notFolder => lit "not a directory"
  | isFolder => lit "is a directory"
  | longName => lit "file name too long"
  | badName => lit "invalid argument"

/-- The names that a path consists of. -/
abbrev PathNames := List Bytes

/-- The longest name that a file may have. -/
def nameCeiling : Nat := 255

/-- The path that swallows what is written to it and holds nothing. -/
def nullDevice : Bytes := lit "/dev/null"

/-- The files of a working directory; of two entries for one path the later one counts. -/
structure Files where
  entries : List (PathNames × FileEntry) := []

namespace Files

/-- What stands at a place. -/
def entry? (files : Files) (names : PathNames) : Option FileEntry :=
  match files.entries.reverse.find? fun (path, _) => path == names with
  | some (_, entry) => some entry
  | none =>
    if names.isEmpty || files.entries.any fun (path, _) => names.isPrefixOf path then some .folder
    else none

/-- Follows names from a folder on. The last name need not be there. -/
def follow (files : Files) (place : PathNames) : PathNames → Except FileError PathNames
  | [] => .ok place
  | name :: rest =>
    match files.entry? place with
    | none => .error .absent
    | some .folder =>
      if name = lit "." then follow files place rest
      else if name = lit ".." then
        if place.isEmpty then .error .absent else follow files place.dropLast rest
      else if nameCeiling < name.length then .error .longName
      else follow files (place ++ [name]) rest
    | some _ => .error .notFolder

/-- The place that a path leads to and whether only a folder may stand there. -/
def locate (files : Files) (path : Bytes) : Except FileError (PathNames × Bool) :=
  if path.contains 0 then .error .badName
  else if path = [] ∨ path.head? = some 47 then .error .absent
  else
    let names := (path.splitOn 47).filter (· != [])
    (files.follow [] names).map (·, path.getLast? == some 47)

/-- Opens what a path leads to. -/
def openEntry (files : Files) (path : Bytes) : Except FileError FileEntry :=
  if path = nullDevice then .ok (.file [])
  else match files.locate path with
    | .error e => .error e
    | .ok (place, onlyFolder) =>
      match files.entry? place, onlyFolder with
      | none, _ => .error .absent
      | some .folder, _ => .ok .folder
      | some _, true => .error .notFolder
      | some entry, false => .ok entry

/-- The files with the given content at a place. -/
def put (files : Files) (place : PathNames) (content : Bytes) : Files :=
  ⟨files.entries.filter (fun (path, _) => path != place) ++ [(place, .file content)]⟩

/-- Creates an empty file, or empties the one that is there. -/
def create (files : Files) (path : Bytes) : Except FileError Files :=
  if path = nullDevice then .ok files
  else match files.locate path with
    | .error e => .error e
    | .ok (place, onlyFolder) =>
      match files.entry? place, onlyFolder with
      | some .folder, _ => .error .isFolder
      | some _, true => .error .notFolder
      | none, true => .error .isFolder
      | _, false => .ok (files.put place [])

/-- Adds to the end of a file. -/
def append (files : Files) (path text : Bytes) : Files :=
  match files.locate path with
  | .error _ => files
  | .ok (place, _) =>
    match files.entry? place with
    | some (.file content) => files.put place (content ++ text)
    | _ => files

/-- The report of a path that cannot be opened. -/
def openMessage (path : Bytes) (e : FileError) : Bytes :=
  lit "open " ++ path ++ lit ": " ++ e.text

/-- The report of a folder that should have been a file. -/
def readMessage (path : Bytes) : Bytes :=
  lit "read " ++ path ++ lit ": " ++ FileError.isFolder.text

/-- The content of a file. -/
def read (files : Files) (path : Bytes) : Except Bytes Bytes :=
  match files.openEntry path with
  | .error e => .error (openMessage path e)
  | .ok .folder => .error (readMessage path)
  | .ok (.file content) => .ok content

end Files

/-- The names of a path without the detours that can be seen from the path alone. `above` tells
whether the path may lead out of where it starts. -/
def shortenNames (above : Bool) (done : PathNames) : PathNames → PathNames
  | [] => done
  | name :: rest =>
    if name = [] ∨ name = lit "." then shortenNames above done rest
    else if name = lit ".." then
      match done.getLast? with
      | none => shortenNames above (if above then [name] else []) rest
      | some last =>
        if last = lit ".." then shortenNames above (done ++ [name]) rest
        else shortenNames above done.dropLast rest
    else shortenNames above (done ++ [name]) rest

/-- The path of a name inside a folder, in its shortest form. -/
def pathIn (folder name : Bytes) : Bytes :=
  let path := if folder = [] then name else folder ++ [47] ++ name
  let rooted := path.head? == some 47
  (if rooted then [47] else []) ++ Bytes.join [47] (shortenNames (!rooted) [] (path.splitOn 47))

end BitCalculus
