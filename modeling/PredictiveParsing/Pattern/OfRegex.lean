import PredictiveParsing.Pattern.Basic
import PredictiveParsing.Regex.OfSurface

/-!
# Patterns from regular expressions

A regular expression in normal form becomes a pattern part by part. Capturing groups vanish, and an
assertion has no counterpart.
-/
namespace PredictiveParsing

def ClassItem.ofInterval (kind : Regex.ClassKind) (r : Interval) : ClassItem :=
  if r.lo = r.hi ∧ kind = .unicode then .char (Char.ofNat r.lo)
  else .range (Char.ofNat r.lo) (Char.ofNat r.hi)

def Pattern.repetition (body : Pattern) (min : Nat) (max : Option Nat) : Pattern :=
  match min, max with
  | 0, none => .star body
  | 1, none => .plus body
  | 0, some 1 => .opt body
  | min, max => .rep body min max

namespace Regex

mutual

def toPattern : Regex → Except PatternError Pattern
  | .empty => .ok (.seq [])
  | .literal text => .ok (.literal (String.ofList text))
  | .charClass kind ranges => .ok (.charClass ⟨ranges.map (ClassItem.ofInterval kind), false⟩)
  | .look l => .error (.unsupported l.name)
  | .repetition min max _ body => body.toPattern.map fun p => p.repetition min max
  | .capture _ body => body.toPattern
  | .concat items => (toPatterns items).map .seq
  | .alternation items => (toPatterns items).map .alt

def toPatterns : List Regex → Except PatternError (List Pattern)
  | [] => .ok []
  | r :: rs =>
    match r.toPattern with
    | .error e => .error e
    | .ok p => (toPatterns rs).map (p :: ·)

end

end Regex

def Pattern.ofString (text : String) : Except PatternError Pattern :=
  match Regex.ofString? text with
  | none => .error (.regexSyntax text)
  | some r => r.toPattern

end PredictiveParsing
