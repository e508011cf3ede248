/-!
# Exploration of a graph

Breadth-first exploration from a list of roots. The nodes come in the order in which they are found,
each once. A node is found when the first of its predecessors is expanded, or because it is a root.
-/
namespace PredictiveParsing.Exploration

variable {α : Type} [DecidableEq α]

def fresh (seen : List α) : List α → List α
  | [] => []
  | x :: xs => if x ∈ seen then fresh seen xs else x :: fresh (x :: seen) xs

/-- Expands the nodes of `queue` and what is found on the way, at most `fuel` nodes. The nodes
expanded so far come in reverse order. -/
def expand (succ : α → List α) : (fuel : Nat) → (done queue : List α) → List α
  | 0, done, queue => done.reverse ++ queue
  | _ + 1, done, [] => done.reverse
  | fuel + 1, done, x :: queue =>
    expand succ fuel (x :: done) (queue ++ fresh (x :: queue ++ done) (succ x))

/-- The nodes reachable from `roots`, if there are at most `fuel` of them. -/
def reachable (succ : α → List α) (fuel : Nat) (roots : List α) : List α :=
  expand succ fuel [] (fresh [] roots)

end PredictiveParsing.Exploration
