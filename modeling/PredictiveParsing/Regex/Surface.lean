/-!
# Regular expressions as written

The tree of a regular expression before flags are applied: what stands in the text, group by group.
-/
namespace PredictiveParsing.Regex

inductive Flag
  | ignoreCase
  | multiLine
  | dotAll
  | swapGreed
  | unicode
  | crlf
  | extended
deriving DecidableEq

abbrev FlagChange := List (Flag × Bool)

inductive Assertion
  | startLine
  | endLine
  | startText
  | endText
  | wordBoundary
  | notWordBoundary
  | wordStart
  | wordEnd
  | wordStartHalf
  | wordEndHalf
deriving DecidableEq

inductive Shorthand
  | digit
  | space
  | word
deriving DecidableEq

inductive NamedClass
  | alnum
  | alpha
  | ascii
  | blank
  | cntrl
  | digit
  | graph
  | lower
  | print
  | punct
  | space
  | upper
  | word
  | xdigit
deriving DecidableEq

structure Literal where
  char : Char
  byte : Bool
deriving DecidableEq

inductive SetOperator
  | intersection
  | difference
  | symmetricDifference
deriving DecidableEq

inductive ClassBody
  | empty
  | literal (l : Literal)
  | range (lo hi : Literal)
  | named (name : NamedClass) (negated : Bool)
  | shorthand (s : Shorthand) (negated : Bool)
  | bracketed (negated : Bool) (body : ClassBody)
  | union (items : List ClassBody)
  | binary (op : SetOperator) (left right : ClassBody)

inductive GroupKind
  | capture (index : Nat) (name : Option String)
  | plain (flags : FlagChange)

inductive Surface
  | empty
  /-- Flags set for the rest of the enclosing group. -/
  | flags (change : FlagChange)
  | literal (l : Literal)
  | dot
  | assertion (a : Assertion)
  | shorthand (s : Shorthand) (negated : Bool)
  | bracketed (negated : Bool) (body : ClassBody)
  | repetition (min : Nat) (max : Option Nat) (greedy : Bool) (body : Surface)
  | group (kind : GroupKind) (body : Surface)
  | concat (items : List Surface)
  | alternation (items : List Surface)

mutual

def ClassBody.depth : ClassBody → Nat
  | .empty => 0
  | .literal _ => 0
  | .range _ _ => 0
  | .named _ _ => 0
  | .shorthand _ _ => 0
  | .bracketed _ body => body.depth + 1
  | .union items => ClassBody.depthOf items + 1
  | .binary _ left right => max left.depth right.depth + 1

def ClassBody.depthOf : List ClassBody → Nat
  | [] => 0
  | b :: bs => max b.depth (ClassBody.depthOf bs)

end

mutual

def Surface.depth : Surface → Nat
  | .empty => 0
  | .flags _ => 0
  | .literal _ => 0
  | .dot => 0
  | .assertion _ => 0
  | .shorthand _ _ => 0
  | .bracketed _ body => body.depth + 1
  | .repetition _ _ _ body => body.depth + 1
  | .group _ body => body.depth + 1
  | .concat items => Surface.depthOf items + 1
  | .alternation items => Surface.depthOf items + 1

def Surface.depthOf : List Surface → Nat
  | [] => 0
  | s :: ss => max s.depth (Surface.depthOf ss)

end

def nestLimit : Nat := 250

def Surface.ofConcat : List Surface → Surface
  | [] => .empty
  | [s] => s
  | ss => .concat ss

def ClassBody.ofUnion : List ClassBody → ClassBody
  | [] => .empty
  | [b] => b
  | bs => .union bs

end PredictiveParsing.Regex
