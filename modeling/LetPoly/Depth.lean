import LetPoly.Event
import LetPoly.Failure

/-!
# Nesting and bounded stacks

How deeply expressions, types and values are nested, and the work of reading and checking on a
stack that holds a certain nesting only.  Work that finds no room on the stack fails; what was
reported before it failed stays.

A stack without bounds is never too small: on it, reading and checking are what they are elsewhere.

Current gaps:

- The stack is counted in levels of what is worked on, one bound for each kind of work, and not in
  the calls that are open at the same time.
- Checking is given up before the first step that is reported with a type that is too deep.  Types
  that occur between two reports do not count.
- A session has no bound other than the one on evaluation.
-/

namespace LetPoly

variable {κ : Type}

/-- The greatest of some numbers. -/
def greatest (depths : List Nat) : Nat :=
  depths.foldr max 0

mutual

/-- How deeply an expression is nested. -/
def Expr.depth : Expr → Nat
  | .var _ | .int _ | .bool _ | .prim _ | .hole => 1
  | .app function argument => max function.depth argument.depth + 1
  | .lam _ body | .fix body => body.depth + 1
  | .letIn _ value body => max value.depth body.depth + 1
  | .ifThenElse test onTrue onFalse => max test.depth (max onTrue.depth onFalse.depth) + 1
  | .list elements => Expr.depthOfAll elements + 1

/-- How deeply the deepest of some expressions is nested. -/
def Expr.depthOfAll : List Expr → Nat
  | [] => 0
  | e :: rest => max e.depth (Expr.depthOfAll rest)

end

namespace Ty

/-- How deeply a type is nested. -/
def depth : Ty κ → Nat
  | var _ | con _ => 1
  | fn argument result => max argument.depth result.depth + 1
  | list element => element.depth + 1
  | pair first second => max first.depth second.depth + 1
  | quantified _ _ body => body.depth + 1

end Ty

/-- How deeply the type of a scheme is nested. -/
def Scheme.depth (scheme : Scheme κ) : Nat :=
  scheme.body.depth

/-- How deeply the types of a constraint are nested. -/
def Constraint.depth (c : Constraint κ) : Nat :=
  max c.left.depth c.right.depth

/-- How deeply the types of a substitution are nested. -/
def Subst.depth (s : Subst κ) : Nat :=
  greatest (s.entries.map fun entry => entry.2.depth)

/-- How deeply the types are nested that a type error shows. -/
def TypeError.depth : TypeError κ → Nat
  | clash left right => max left.depth right.depth
  | infinite _ type => type.depth
  | lengths lefts rights => max (greatest (lefts.map Ty.depth)) (greatest (rights.map Ty.depth))
  | ambiguous constraints => greatest (constraints.map Constraint.depth)
  | unbound _ => 0

/-- How deeply the types of a report are nested. -/
def Event.depth : Event κ → Nat
  | unifying left right => max left.depth right.depth
  | generalized _ scheme | typed _ scheme => scheme.depth
  | solution s => s.depth
  | generated _ | valued _ _ => 0

mutual

/-- How deeply a value is nested; what a function holds does not count. -/
def Value.depth : Value → Nat
  | .int _ | .bool _ | .closure _ _ _ | .hole => 1
  | .list elements => Value.depthOfAll elements + 1
  | .pair first second => max first.depth second.depth + 1

/-- How deeply the deepest of some values is nested. -/
def Value.depthOfAll : List Value → Nat
  | [] => 0
  | v :: rest => max v.depth (Value.depthOfAll rest)

end

/-- How much nesting there is room for in each kind of work.  No number means no bound. -/
structure Stack where
  /-- Levels of expressions while a text is read. -/
  reading : Option Nat
  /-- Levels of expressions and types while a program is checked. -/
  checking : Option Nat
  /-- Levels of types and values while they are printed. -/
  printing : Option Nat
deriving DecidableEq

namespace Stack

/-- A stack without bounds. -/
def unbounded : Stack where
  reading := none
  checking := none
  printing := none

/-- The stack of a run unless told otherwise. -/
def standard : Stack where
  reading := some 101
  checking := some 980
  printing := some 330

/-- Whether there is room for so many levels. -/
def holds (bound : Option Nat) (depth : Nat) : Bool :=
  bound.all (depth ≤ ·)

end Stack

/-- Reads a program where there is room for so many levels. -/
def Program.parseWithin (bound : Option Nat) (text : String) : Except ReadError Program :=
  match bound with
  | none => Program.parse text
  | some depth => Program.parseUpTo depth text

section Checking

variable [DecidableEq κ]

namespace Expr

/-- Whether there is room to infer the scheme of an expression. -/
def fits (bound : Option Nat) (e : Expr) (env : Env κ) : Bool :=
  Stack.holds bound e.depth &&
    (e.inferenceEvents env).all fun event => Stack.holds bound event.depth

/-- Infers the scheme of an expression where there is room for so many levels. -/
def schemeWithin (bound : Option Nat) (e : Expr) (env : Env κ) : Except (Failure κ) (Scheme κ) :=
  if e.fits bound env then
    match e.scheme env with
    | .error error => .error (.check error)
    | .ok scheme => if Stack.holds bound scheme.depth then .ok scheme else .error .tooDeep
  else .error .tooDeep

/-- The reports made until the room is used up. -/
def inferenceEventsWithin (bound : Option Nat) (e : Expr) (env : Env κ) : List (Event κ) :=
  if Stack.holds bound e.depth then
    (e.inferenceEvents env).takeWhile fun event => Stack.holds bound event.depth
  else []

end Expr

namespace Definition

/-- Types definitions in order where there is room for so many levels. -/
def extendWithin (bound : Option Nat) (env : Env κ) :
    List Definition → Except (Failure κ) (Env κ)
  | [] => .ok env
  | d :: rest => do
      let scheme ← d.value.schemeWithin bound env
      extendWithin bound (env.insert d.name scheme) rest

/-- The reports made while definitions are typed and then an expression, until the room is used
up. -/
def inferEventsWithin (bound : Option Nat) (body : Expr) (env : Env κ) :
    List Definition → List (Event κ)
  | [] => body.inferenceEventsWithin bound env
  | d :: rest =>
      d.value.inferenceEventsWithin bound env ++
        match d.value.schemeWithin bound env with
        | .ok scheme =>
            .typed d.name scheme :: inferEventsWithin bound body (env.insert d.name scheme) rest
        | .error _ => []

end Definition

namespace Program

/-- Types a program where there is room for so many levels. -/
def inferWithin (bound : Option Nat) (program : Program) (env : Env κ) :
    Except (Failure κ) (Env κ × Scheme κ) := do
  let env ← Definition.extendWithin bound env program.definitions
  return (env, ← program.body.schemeWithin bound env)

/-- The reports made while a program is typed, until the room is used up. -/
def inferEventsWithin (bound : Option Nat) (program : Program) (env : Env κ) : List (Event κ) :=
  Definition.inferEventsWithin bound program.body env program.definitions

end Program
end Checking

/-- Text that is printed in two parts, of which the second shows something of a certain depth. -/
structure Line where
  /-- What is printed in any case. -/
  lead : String
  /-- How deeply the thing is nested that is printed then. -/
  depth : Nat
  /-- Its text, and what ends the line. -/
  text : String

/-- Prints lines in order where there is room for so many levels, and says whether all were
printed. -/
def Line.print (bound : Option Nat) : List Line → String × Bool
  | [] => ("", true)
  | line :: rest =>
      if Stack.holds bound line.depth then
        let (text, all) := Line.print bound rest
        (line.lead ++ line.text ++ text, all)
      else (line.lead, false)

end LetPoly
