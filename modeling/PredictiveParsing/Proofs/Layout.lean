import PredictiveParsing.Grammar.Basic
import PredictiveParsing.Grammar.Expr

/-!
# Layout of expressions

The nodes that an expression is lowered to can be told beforehand. They are numbered from a base on,
children before their parent and from left to right, so that the node of the whole expression comes
last, and each child has a link to its parent. Expressions that stand side by side are laid out
without links, and linking their roots to a parent gives the layout as children of that parent. Main
statement: `link_roots`.
-/
namespace PredictiveParsing.Expr

mutual

def nodeCount : Expr → Nat
  | seq items => nodeCounts items + 1
  | choice items => nodeCounts items + 1
  | star body => body.nodeCount + 1
  | plus body => body.nodeCount + 1
  | opt body => body.nodeCount + 1
  | nonterminal _ => 1
  | token _ => 1
  | literal _ => 1
  | action _ => 1
  | lookahead _ _ none _ => 1
  | lookahead _ _ (some nested) _ => nested.nodeCount + 1
  | located _ body => body.nodeCount

def nodeCounts : List Expr → Nat
  | [] => 0
  | e :: es => e.nodeCount + nodeCounts es

end

def rootFrom (e : Expr) (base : Nat) : Nat := base + e.nodeCount - 1

def rootsFrom : List Expr → (base : Nat) → List Nat
  | [], _ => []
  | e :: es, base => e.rootFrom base :: rootsFrom es (base + e.nodeCount)

mutual

def nodesFrom (production : Nat) : Expr → Span → (base : Nat) → (parent : Option Nat) → List Node
  | seq items, span, base, parent =>
    let id := base + nodeCounts items
    nodesOfAll production items span base id ++
      [⟨.sequence (rootsFrom items base), span, parent, production⟩]
  | choice items, span, base, parent =>
    let id := base + nodeCounts items
    nodesOfAll production items span base id ++
      [⟨.choice (rootsFrom items base), span, parent, production⟩]
  | star body, span, base, parent =>
    nodesFrom production body span base (some (base + body.nodeCount)) ++
      [⟨.zeroOrMore (body.rootFrom base), span, parent, production⟩]
  | plus body, span, base, parent =>
    nodesFrom production body span base (some (base + body.nodeCount)) ++
      [⟨.oneOrMore (body.rootFrom base), span, parent, production⟩]
  | opt body, span, base, parent =>
    nodesFrom production body span base (some (base + body.nodeCount)) ++
      [⟨.zeroOrOne (body.rootFrom base), span, parent, production⟩]
  | nonterminal name, span, _, parent => [⟨.nonterminal name, span, parent, production⟩]
  | token name, span, _, parent => [⟨.tokenName name, span, parent, production⟩]
  | literal image, span, _, parent => [⟨.literal image, span, parent, production⟩]
  | action code, span, _, parent => [⟨.action code, span, parent, production⟩]
  | lookahead amount semantic none negated, span, _, parent =>
    [⟨.lookahead ⟨amount, semantic, none, negated⟩, span, parent, production⟩]
  | lookahead amount semantic (some nested) negated, span, base, parent =>
    nodesFrom production nested span base (some (base + nested.nodeCount)) ++
      [⟨.lookahead ⟨amount, semantic, some (nested.rootFrom base), negated⟩, span, parent,
        production⟩]
  | located span body, _, base, parent => nodesFrom production body span base parent

def nodesOfAll (production : Nat) : List Expr → Span → (base parent : Nat) → List Node
  | [], _, _, _ => []
  | e :: es, span, base, parent =>
    nodesFrom production e span base (some parent) ++
      nodesOfAll production es span (base + e.nodeCount) parent

end

/-- The nodes of expressions that are no one's children yet. -/
def nodesApart (production : Nat) : List Expr → Span → (base : Nat) → List Node
  | [], _, _ => []
  | e :: es, span, base =>
    nodesFrom production e span base none ++ nodesApart production es span (base + e.nodeCount)

mutual

def literals : Expr → Span → List (String × Span)
  | seq items, span => literalsOfAll items span
  | choice items, span => literalsOfAll items span
  | star body, span => body.literals span
  | plus body, span => body.literals span
  | opt body, span => body.literals span
  | nonterminal _, _ => []
  | token _, _ => []
  | literal image, span => [(image, span)]
  | action _, _ => []
  | lookahead _ _ none _, _ => []
  | lookahead _ _ (some nested) _, span => nested.literals span
  | located span body, _ => body.literals span

def literalsOfAll : List Expr → Span → List (String × Span)
  | [], _ => []
  | e :: es, span => e.literals span ++ literalsOfAll es span

end

mutual

theorem length_nodesFrom (production : Nat) (e : Expr) (span : Span) (base : Nat)
    (parent : Option Nat) :
    (nodesFrom production e span base parent).length = e.nodeCount := by
  match e with
  | .seq items | .choice items =>
    simp [nodesFrom, nodeCount, length_nodesOfAll production items]
  | .star body | .plus body | .opt body | .lookahead _ _ (some body) _ | .located _ body =>
    simp [nodesFrom, nodeCount, length_nodesFrom production body]
  | .nonterminal _ | .token _ | .literal _ | .action _ | .lookahead _ _ none _ => rfl

theorem length_nodesOfAll (production : Nat) (es : List Expr) (span : Span) (base parent : Nat) :
    (nodesOfAll production es span base parent).length = nodeCounts es := by
  match es with
  | [] => rfl
  | e :: es => simp [nodesOfAll, nodeCounts, length_nodesFrom production e,
      length_nodesOfAll production es]

end

theorem length_nodesApart (production : Nat) (es : List Expr) (span : Span) (base : Nat) :
    (nodesApart production es span base).length = nodeCounts es := by
  induction es generalizing base with
  | nil => rfl
  | cons e es ih => rw [nodesApart, List.length_append, length_nodesFrom, ih, nodeCounts]

/-- The link of the last node is the parent's, and nothing else depends on the parent. -/
theorem exists_nodesFrom_concat (production : Nat) (e : Expr) (span : Span) (base : Nat) :
    ∃ (ns : List Node) (n : Node), ns.length + 1 = e.nodeCount ∧
      ∀ parent, nodesFrom production e span base parent = ns ++ [{ n with parent := parent }] := by
  match e with
  | .seq items =>
    exact ⟨_, ⟨.sequence (rootsFrom items base), span, none, production⟩,
      congrArg (· + 1) (length_nodesOfAll production items span base _), fun _ => rfl⟩
  | .choice items =>
    exact ⟨_, ⟨.choice (rootsFrom items base), span, none, production⟩,
      congrArg (· + 1) (length_nodesOfAll production items span base _), fun _ => rfl⟩
  | .star body =>
    exact ⟨_, ⟨.zeroOrMore (body.rootFrom base), span, none, production⟩,
      congrArg (· + 1) (length_nodesFrom production body span base _), fun _ => rfl⟩
  | .plus body =>
    exact ⟨_, ⟨.oneOrMore (body.rootFrom base), span, none, production⟩,
      congrArg (· + 1) (length_nodesFrom production body span base _), fun _ => rfl⟩
  | .opt body =>
    exact ⟨_, ⟨.zeroOrOne (body.rootFrom base), span, none, production⟩,
      congrArg (· + 1) (length_nodesFrom production body span base _), fun _ => rfl⟩
  | .lookahead amount semantic (some nested) negated =>
    exact ⟨_, ⟨.lookahead ⟨amount, semantic, some (nested.rootFrom base), negated⟩, span, none,
      production⟩, congrArg (· + 1) (length_nodesFrom production nested span base _), fun _ => rfl⟩
  | .nonterminal _ | .token _ | .literal _ | .action _ | .lookahead _ _ none _ =>
    exact ⟨[], ⟨_, span, none, production⟩, rfl, fun _ => rfl⟩
  | .located inner body => exact exists_nodesFrom_concat production body inner base

theorem modify_append_length {α : Type} (xs : List α) (y : α) (ys : List α) (f : α → α) :
    (xs ++ y :: ys).modify xs.length f = xs ++ f y :: ys := by
  induction xs with
  | nil => rfl
  | cons x xs ih => exact congrArg (x :: ·) ih

theorem link_root {before : List Node} {base : Nat} (hbase : before.length = base)
    (production : Nat) (e : Expr) (span : Span) (after : List Node) (parent : Nat) :
    (before ++ (nodesFrom production e span base none ++ after)).modify (e.rootFrom base)
        (·.linkTo parent) =
      before ++ nodesFrom production e span base (some parent) ++ after := by
  obtain ⟨ns, n, hlength, hnodes⟩ := exists_nodesFrom_concat production e span base
  have hroot : e.rootFrom base = (before ++ ns).length := by
    rw [rootFrom, List.length_append]
    omega
  have hlink := modify_append_length (before ++ ns) { n with parent := none } after
    (·.linkTo parent)
  rw [hnodes, hnodes, hroot]
  simpa [Node.linkTo] using hlink

theorem link_roots {before : List Node} {base : Nat} (hbase : before.length = base)
    (production : Nat) (es : List Expr) (span : Span) (parent : Nat) :
    (rootsFrom es base).foldl (fun ns i => ns.modify i (·.linkTo parent))
        (before ++ nodesApart production es span base) =
      before ++ nodesOfAll production es span base parent := by
  induction es generalizing before base with
  | nil => rfl
  | cons e es ih =>
    have hnext : (before ++ nodesFrom production e span base (some parent)).length =
        base + e.nodeCount := by
      rw [List.length_append, length_nodesFrom, hbase]
    rw [rootsFrom, List.foldl_cons, nodesApart, link_root hbase, ih hnext, nodesOfAll,
      List.append_assoc]

end PredictiveParsing.Expr
