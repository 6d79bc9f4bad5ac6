/-!
# Built-in operators

The twelve operators of the language, each with the text that names it and the number of
arguments it takes.
-/

namespace LetPoly

/-- A built-in operator. -/
inductive Primitive where
  | add
  | sub
  | mul
  | eql
  | null
  | map
  | foldl
  | pair
  | fst
  | snd
  | cons
  | nil
deriving DecidableEq, Inhabited

namespace Primitive

/-- All operators, in the order in which they are listed in reports. -/
def all : List Primitive :=
  [add, sub, mul, eql, null, map, foldl, pair, fst, snd, cons, nil]

/-- The text of an operator in source. -/
def symbol : Primitive → String
  | add => "+"
  | sub => "-"
  | mul => "*"
  | eql => "=="
  | null => "null"
  | map => "map"
  | foldl => "foldl"
  | pair => "pair"
  | fst => "fst"
  | snd => "snd"
  | cons => "cons"
  | nil => "nil"

/-- The capital name of an operator in descriptions. -/
def label : Primitive → String
  | add => "ADD"
  | sub => "SUB"
  | mul => "MUL"
  | eql => "EQL"
  | null => "NULL"
  | map => "MAP"
  | foldl => "FOLDL"
  | pair => "PAIR"
  | fst => "FST"
  | snd => "SND"
  | cons => "CONS"
  | nil => "NIL"

/-- The number of arguments an operator takes. -/
def arity : Primitive → Nat
  | nil => 0
  | null | fst | snd => 1
  | add | sub | mul | eql | map | pair | cons => 2
  | foldl => 3

/-- The operator with the given text, if there is one. -/
def ofSymbol? (text : String) : Option Primitive :=
  all.find? fun p => p.symbol == text

/-- Every operator is listed. -/
theorem mem_all (p : Primitive) : p ∈ all := by
  cases p <;> decide

/-- An operator is found by its own text. -/
@[simp] theorem ofSymbol?_symbol (p : Primitive) : ofSymbol? p.symbol = some p := by
  cases p <;> decide

end Primitive

end LetPoly
