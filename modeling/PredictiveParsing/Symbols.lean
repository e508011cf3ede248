/-!
# Name tables

A table of distinct names in the order in which they were first added. A name's index is its place
in that order and never changes.
-/
namespace PredictiveParsing

structure Symbols where
  names : List String
deriving DecidableEq

namespace Symbols

def empty : Symbols := ⟨[]⟩

def size (t : Symbols) : Nat := t.names.length

def isEmpty (t : Symbols) : Bool := t.names.isEmpty

def index? (t : Symbols) (name : String) : Option Nat := t.names.idxOf? name

def name? (t : Symbols) (i : Nat) : Option String := t.names[i]?

def push (t : Symbols) (name : String) : Symbols := ⟨t.names ++ [name]⟩

def add (t : Symbols) (name : String) : Symbols × Nat × Bool :=
  match t.index? name with
  | some i => (t, i, false)
  | none => (t.push name, t.size, true)

end Symbols
end PredictiveParsing
