import PredictiveParsing.Text.Position

/-!
# Expressions of productions

The right-hand sides of productions as they are written.
-/
namespace PredictiveParsing

inductive Expr
  | seq (items : List Expr)
  | choice (items : List Expr)
  | star (body : Expr)
  | plus (body : Expr)
  | opt (body : Expr)
  | nonterminal (name : String)
  | token (name : String)
  | literal (image : String)
  | action (code : String)
  /-- Lookahead stated for the alternative that begins here: a number of tokens, a predicate, or an
  expression that is scanned ahead. -/
  | lookahead (amount : Option Nat) (semantic : Option String) (nested : Option Expr) (negated : Bool)
  | located (span : Span) (body : Expr)
deriving Inhabited

def Expr.negate : Expr → Expr
  | .lookahead amount semantic nested negated => .lookahead amount semantic nested (!negated)
  | .located span body => .located span body.negate
  | e => e

end PredictiveParsing
