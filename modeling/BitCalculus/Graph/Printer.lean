import BitCalculus.Graph.Expr

/-!
# Printing expressions

`$n` is slot `n`, `\[c0 c1] body` an abstraction with its captured slots, `(f a)` an application. A
node that occurs several times is printed at each occurrence, so `serializeTo` can stop early: it
enters no node once `limit` bytes are there.
-/

namespace BitCalculus.Expr

/-- The head of an abstraction: its captured slots between brackets. -/
def header (captured : List Int) : Bytes :=
  lit "\\[" ++ .join (lit " ") (captured.map .ofInt) ++ lit "] "

/-- The whole text of an expression, followed by `rest`. -/
def textBefore (rest : Bytes) : Expr → Bytes
  | slot _ index => lit "$" ++ (Bytes.ofInt index ++ rest)
  | lambda _ captured body _ _ => header captured ++ textBefore rest body
  | apply _ function argument _ _ =>
    lit "(" ++ textBefore (lit " " ++ textBefore (lit ")" ++ rest) argument) function

/-- The whole text of an expression. -/
def text (e : Expr) : Bytes :=
  e.textBefore []

/-- Appends the text of an expression to `written`. A node is entered only while fewer than `limit`
bytes are written; separators and closing parentheses of entered nodes always follow. -/
def serializeTo (limit : Nat) (written : Array UInt8) : Expr → Array UInt8
  | slot _ index =>
    if limit ≤ written.size then written else written ++ lit "$" ++ Bytes.ofInt index
  | lambda _ captured body _ _ =>
    if limit ≤ written.size then written
    else serializeTo limit (written ++ header captured) body
  | apply _ function argument _ _ =>
    if limit ≤ written.size then written
    else
      let written := serializeTo limit (written.push 40) function
      let written := serializeTo limit (written.push 32) argument
      written.push 41

/-- The text of an expression as far as a limit lets it be printed; a negative limit is none. -/
def serialize (limit : Int) (e : Expr) : Bytes :=
  if limit < 0 then e.text else (serializeTo limit.toNat #[] e).toList

end BitCalculus.Expr
