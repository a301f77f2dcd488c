import BitCalculus.Text.Bytes

/-!
# Compressed files

The name of a compressed file tells its format, and a decoder for this format turns the bytes of the
file into those that the file stands for. Decoders are not part of the program but a parameter of
it, `Decoders`. Those used by default read gzip archives whose blocks are stored as they are, under
the names of the other formats as well.
-/

namespace BitCalculus

/-- What can be read of a text: the bytes that come, and why no more come if that is not the end of
the text. -/
structure Content where
  bytes : Bytes
  failure : Option Bytes := none
deriving DecidableEq

/-- The formats of compressed files. -/
inductive Archive where
  | xz
  | lz4
  | gz
deriving DecidableEq

/-- The decoders of compressed files. They make of the content of a file the content that the file
stands for. Those of xz and gz read the start of the file at once and may refuse it. -/
class Decoders where
  xz : Content → Except Bytes Content
  lz4 : Content → Content
  gz : Content → Except Bytes Content

namespace Archive

/-- The format of a file with the given name; other files are not compressed. -/
def ofPath? (path : Bytes) : Option Archive :=
  if path.endsWith (lit ".xz") then some .xz
  else if path.endsWith (lit ".lz4") then some .lz4
  else if path.endsWith (lit ".gz") then some .gz
  else none

/-- The content that a compressed file stands for. -/
def decode [Decoders] : Archive → Content → Except Bytes Content
  | xz, content => Decoders.xz content
  | lz4, content => .ok (Decoders.lz4 content)
  | gz, content => Decoders.gz content

end Archive

/-! ### Stored archives -/

namespace Gzip

/-- The bytes that every archive starts with. -/
def mark : Bytes := [0x1F, 0x8B, 8]

/-- The head of an archive without optional fields, of which no time is known. -/
def head : Bytes := mark ++ [0, 0, 0, 0, 0, 0, 255]

/-- The last `width` digits to the base 256, least significant first. -/
def digits : Nat → Nat → Bytes
  | 0, _ => []
  | width + 1, n => (n % 256).toUInt8 :: digits width (n / 256)

/-- A remainder moved by one bit. -/
def shift (remainder : UInt32) : UInt32 :=
  if remainder &&& 1 = 1 then remainder >>> 1 ^^^ 0xEDB88320 else remainder >>> 1

/-- The cyclic redundancy check of a text. -/
def checksum (text : Bytes) : UInt32 :=
  ~~~(text.foldl (fun remainder b => Nat.repeat shift 8 (remainder ^^^ b.toUInt32)) 0xFFFFFFFF)

/-- The end of an archive: the checksum and the length of the text. -/
def trailer (text : Bytes) : Bytes :=
  digits 4 (checksum text).toNat ++ digits 4 text.length

/-- The greatest length of a block. -/
def blockCeiling : Nat := 65535

/-- A stored block: whether it is the last one, its length, and the length again, inverted. -/
def block (isLast : Bool) (text : Bytes) : Bytes :=
  (if isLast then 1 else 0) ::
    (digits 2 text.length ++ digits 2 (blockCeiling - text.length) ++ text)

/-- A text as stored blocks. -/
def blocks (text : Bytes) : Bytes :=
  if text.length ≤ blockCeiling then block true text
  else block false (text.take blockCeiling) ++ blocks (text.drop blockCeiling)
termination_by text.length
decreasing_by
  simp only [List.length_drop, blockCeiling] at *
  omega

/-- An archive of a text. -/
def pack (text : Bytes) : Bytes :=
  head ++ blocks text ++ trailer text

/-- Reads stored blocks behind the text that was read so far: the text up to where they end, and the
bytes after them or the reason why the last block is not reached. -/
def readBlocks (ended : Bytes) (text : Bytes) : Bytes → Bytes × Except Bytes Bytes
  | kind :: l₀ :: l₁ :: n₀ :: n₁ :: rest =>
    let length := l₀.toNat + 256 * l₁.toNat
    if kind % 8 / 2 ≠ 0 ∨ length + (n₀.toNat + 256 * n₁.toNat) ≠ blockCeiling then
      (text, .error (lit "gzip: not a stored block"))
    else if rest.length < length then (text ++ rest, .error ended)
    else if kind % 2 = 1 then (text ++ rest.take length, .ok (rest.drop length))
    else readBlocks ended (text ++ rest.take length) (rest.drop length)
  | _ => (text, .error ended)
termination_by bytes => bytes.length
decreasing_by
  simp only [List.length_drop, List.length_cons]
  omega

/-- Reads an archive. -/
def unpack (archive : Content) : Except Bytes Content :=
  let ended := archive.failure.getD (lit "unexpected EOF")
  if archive.bytes = [] then .error (archive.failure.getD (lit "EOF"))
  else if archive.bytes.length < head.length then .error ended
  else if archive.bytes.take 3 ≠ mark then .error (lit "gzip: invalid header")
  else if archive.bytes[3]? ≠ some 0 then .error (lit "gzip: optional fields are not read")
  else
    match readBlocks ended [] (archive.bytes.drop head.length) with
    | (text, .error reason) => .ok ⟨text, some reason⟩
    | (text, .ok rest) =>
      if rest.length < 8 then .ok ⟨text, some ended⟩
      else if rest.take 8 ≠ trailer text then .ok ⟨text, some (lit "gzip: invalid checksum")⟩
      else if rest.drop 8 ≠ [] then .ok ⟨text, some (lit "gzip: invalid header")⟩
      else .ok ⟨text, archive.failure⟩

end Gzip

instance : Decoders where
  xz := Gzip.unpack
  lz4 archive :=
    match Gzip.unpack archive with
    | .ok content => content
    | .error reason => ⟨[], some reason⟩
  gz := Gzip.unpack

end BitCalculus
