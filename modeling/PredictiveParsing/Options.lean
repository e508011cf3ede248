/-!
# Options of a grammar
-/
namespace PredictiveParsing

inductive ConflictPolicy
  | warn
  | error
deriving DecidableEq

structure Options where
  maxLookahead : Nat := 2
  ignoreCase : Bool := false
  conflictPolicy : ConflictPolicy := .warn
  /-- Whether alternatives that state their own lookahead are checked against the others. -/
  forceLookaheadCheck : Bool := false
  minimize : Bool := true
  /-- A hint on how work is scheduled; no result depends on it. -/
  parallel : Bool := true
deriving DecidableEq

def Options.withMaxLookahead (o : Options) (k : Nat) : Options := { o with maxLookahead := max k 1 }

end PredictiveParsing
