import BitCalculus.Run.Cache
import BitCalculus.Source.Token

/-!
# Built-in names

The names that a program may use freely. Binding a program's free names makes one value for each of
them, in order; names that are not built in are reported all at once.
-/

namespace BitCalculus

/-- The built-in functions. -/
inductive Builtin where
  | writeZero
  | writeOne
  | read
  | debug
deriving DecidableEq

namespace Builtin

/-- All built-in functions, ordered by name. -/
def all : List Builtin :=
  [debug, read, writeZero, writeOne]

/-- The name that programs use. -/
def name : Builtin → Bytes
  | writeZero => lit "__builtin_p0"
  | writeOne => lit "__builtin_p1"
  | read => lit "__builtin_g"
  | debug => lit "__builtin_debug"

/-- What the function does, line by line. -/
def description : Builtin → List Bytes
  | writeZero => [lit "writes bit 0 to the output and returns its argument"]
  | writeOne => [lit "writes bit 1 to the output and returns its argument"]
  | read =>
    [lit "(__builtin_g zero one eof x) reads one input bit once x is applied",
      lit "and returns zero, one or eof accordingly"]
  | debug => [lit "reports the identity of its argument on the debug channel and returns it"]

/-- Whether the function never touches a stream. -/
def isPure : Builtin → Bool
  | debug => true
  | _ => false

/-- The bytes that the declaration of the function takes up: name, description and a fixed part. -/
def footprint (b : Builtin) : Nat :=
  b.name.length + (Bytes.join [10] b.description).length + 48

/-- The function with the given name. -/
def find? (name : Bytes) : Option Builtin :=
  all.find? fun b => b.name == name

/-- The value of the function with the given number. -/
def value (id : Nat) : Builtin → Value
  | writeZero => .writer id false
  | writeOne => .writer id true
  | read => .reader id []
  | debug => .probe id

/-- Makes a value of the function. -/
def instantiate (b : Builtin) (c : Cache) : Value × Cache :=
  let (id, c) := c.next
  (b.value id, c)

/-- The paragraph that explains the function. -/
def help (b : Builtin) : List Bytes :=
  [b.name] ++ b.description.map (lit "    " ++ ·) ++
    (if b.isPure then [lit "    (pure)"] else []) ++ [[]]

/-- The explanation of all functions. -/
def helpText : Bytes :=
  .ofLines (all.flatMap help)

end Builtin

/-- The report of names that are not built in. -/
def undefinedMessage (names : List Token) : Bytes :=
  .join [10] <| names.map fun t =>
    lit "Undefined variable " ++ t.text.quoted ++ lit " (" ++ t.location.text ++ lit ")"

namespace Cache

/-- Makes the values of the names that are built in, in order; the other names are returned. -/
def instantiateAll (c : Cache) : List Token → List Value × List Token × Cache
  | [] => ([], [], c)
  | token :: tokens =>
    match Builtin.find? token.text with
    | none =>
      let (values, undefined, c) := c.instantiateAll tokens
      (values, token :: undefined, c)
    | some b =>
      let (value, c) := b.instantiate c
      let (values, undefined, c) := c.instantiateAll tokens
      (value :: values, undefined, c)

/-- The outermost environment of a program with the given free names, or the names that are not
built in. The cache keeps the numbers that were given out either way. -/
def bind (c : Cache) (free : List Token) : Except (List Token) Base × Cache :=
  match c.instantiateAll free with
  | (values, [], c) =>
    let (env, c) := c.environment values
    (.ok env, c)
  | (_, undefined, c) => (.error undefined, c)

end Cache

end BitCalculus
