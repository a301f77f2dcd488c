import BitCalculus.CommandLine.Run

/-!
# The program

Reads the standard input and the files that the arguments name, makes the call, and writes what the
call left behind.
-/

namespace BitCalculus.Main

/-- The rest of a stream. -/
partial def readAll (stream : IO.FS.Stream) (soFar : ByteArray) : IO ByteArray := do
  let part ← stream.read 65536
  if part.isEmpty then return soFar else readAll stream (soFar ++ part)

/-- The names in an argument that may be names of files: the argument itself, and what stands behind
its equals sign. -/
def namesIn (argument : String) : List String :=
  argument :: (argument.splitOn "=").drop 1

/-- The entry of a file that can be read. Whatever is there and cannot be read counts as a folder.
-/
def entryOf (name : String) : IO (Option FileEntry) := do
  try
    let content ← IO.FS.readBinFile name
    return some (.file content.toList)
  catch
    | .noFileOrDirectory .. => return none
    | _ => return some .folder

/-- Adds the file with the given name, if it is there. -/
def addFile (files : Files) (name : String) : IO Files := do
  match ← entryOf name with
  | some entry => return ⟨files.entries ++ [(((lit name).splitOn 47).filter (· != []), entry)]⟩
  | none => return files

/-- The files that a call works with: those that the arguments name, and the history. -/
def filesOf (arguments : List String) : IO Files := do
  let files ← ((arguments.flatMap namesIn).filter (· ≠ "")).foldlM addFile {}
  match CommandLine.historyFile (arguments.map lit) files with
  | none => return files
  | some path =>
    match String.fromUTF8? path.toByteArray with
    | some name => addFile files name
    | none => return files

/-- The labels of a call: random names for runs, and the time since the machine was started. -/
def labels : IO Labels := do
  let random ← IO.getRandomBytes 8
  let seconds := (← IO.monoMsNow) / 1000
  let name := random.toList.flatMap fun b => hexDigits 2 b.toNat
  return { runId := fun n => name ++ lit "-" ++ .ofNat n, moment := .ofNat seconds,
           duration := lit "0s" }

/-- Writes the files that a call has made or changed. -/
def writeFiles (before after : Files) : IO Unit := do
  for (path, entry) in after.entries do
    match entry with
    | .file content =>
      if before.entry? path ≠ some entry then
        match String.fromUTF8? (Bytes.join [47] path).toByteArray with
        | some name => IO.FS.writeBinFile name content.toByteArray
        | none => pure ()
    | _ => pure ()

end BitCalculus.Main

open BitCalculus in
/-- The program. -/
def main (arguments : List String) : IO UInt32 := do
  let files ← Main.filesOf arguments
  let input ←
    if CommandLine.readsInput (arguments.map lit) then Main.readAll (← IO.getStdin) .empty
    else pure .empty
  let (code, shell) :=
    CommandLine.call (arguments.map lit)
      { labels := ← Main.labels, files, input := input.toList }
  (← IO.getStdout).write shell.stdout.toList.toByteArray
  (← IO.getStderr).write shell.stderr.toList.toByteArray
  Main.writeFiles files shell.files
  return code.toUInt32
