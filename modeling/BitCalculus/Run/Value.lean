import BitCalculus.Fault
import BitCalculus.Graph.Printer

/-!
# Values and environments

A value is anything that can be applied: a closure, or one of the built-in writers, readers and
probes. Each value has a number that identifies it within its run. A base environment lists values;
the body of a closure is evaluated in an overlay, which puts the argument in front of the captured
base.
-/

namespace BitCalculus

mutual

/-- What programs compute with. A `writer` writes its bit and returns its argument. A `reader`
holds the continuations given so far: for a zero bit, for a one bit and for the end of the input.
A `probe` reports its argument and returns it. -/
inductive Value where
  | closure (id : Nat) (env : Base) (body : Expr)
  | writer (id : Nat) (bit : Bool)
  | reader (id : Nat) (held : List Value)
  | probe (id : Nat)

/-- A list of values with a number of its own; `effectful` tells whether one of them can reach a
stream. -/
inductive Base where
  | mk (id : Nat) (values : List Value) (effectful : Bool)

end

namespace Base

/-- The number of an environment. -/
def id : Base → Nat
  | mk id _ _ => id

/-- The values of an environment, slot by slot. -/
def values : Base → List Value
  | mk _ values _ => values

/-- Whether some value of the environment can reach a stream. -/
def effectful : Base → Bool
  | mk _ _ effectful => effectful

end Base

namespace Value

/-- The number of a value. -/
def id : Value → Nat
  | closure id _ _ => id
  | writer id _ => id
  | reader id _ => id
  | probe id => id

/-- Whether applying the value, or anything reachable from it, can read or write a bit. -/
def effectful : Value → Bool
  | closure _ env _ => env.effectful
  | writer _ _ => true
  | reader _ _ => true
  | probe _ => false

/-- A value as it is shown: what it is and its number. -/
def text : Value → Bytes
  | closure id _ _ => lit "<closure #" ++ .ofNat id ++ lit ">"
  | writer id bit => lit "<p" ++ .ofNat bit.toNat ++ lit " #" ++ .ofNat id ++ lit ">"
  | reader id held => lit "<g/" ++ .ofNat held.length ++ lit " #" ++ .ofNat id ++ lit ">"
  | probe id => lit "<debug #" ++ .ofNat id ++ lit ">"

/-- A value without its number, down to the given depth: for a closure the start of its body and
the shapes of what it captures. -/
def shape : Nat → Value → Bytes
  | 0, _ => lit "*"
  | depth + 1, closure _ env body =>
    lit "\x7b" ++ body.serialize 200 ++ lit " | " ++
      .join (lit ", ") (env.values.map (shape depth)) ++ lit "\x7d"
  | _ + 1, writer _ bit => lit "p" ++ .ofNat bit.toNat
  | _ + 1, reader _ held => lit "g/" ++ .ofNat held.length
  | _ + 1, probe _ => lit "debug"

end Value

/-- Where the slots of an expression find their values: in a base, or in a base with an argument in
front. -/
inductive Env where
  | base (values : Base)
  | overlay (captured : Base) (argument : Value)

namespace Env

/-- The value of a slot. -/
def get : Env → Int → Except Fault Value
  | base values, slot => elementAt values.values slot
  | overlay captured argument, slot =>
    if slot = 0 then .ok argument else elementAt captured.values (slot - 1)

/-- The values of several slots; the first one that is missing is the fault. -/
def getAll (env : Env) : List Int → Except Fault (List Value)
  | [] => .ok []
  | slot :: slots =>
    match env.get slot with
    | .error fault => .error fault
    | .ok value =>
      match getAll env slots with
      | .error fault => .error fault
      | .ok values => .ok (value :: values)

/-- Whether none of the slots holds a value that can reach a stream, looked up from left to right
until one does. -/
def allPure (env : Env) : List Int → Except Fault Bool
  | [] => .ok true
  | slot :: slots =>
    match env.get slot with
    | .error fault => .error fault
    | .ok value => if value.effectful then .ok false else allPure env slots

/-- Whether evaluating the expression in this environment provably leaves the streams alone. -/
def provablyPure (env : Env) (e : Expr) : Except Fault Bool :=
  env.allPure e.reads

end Env

end BitCalculus
