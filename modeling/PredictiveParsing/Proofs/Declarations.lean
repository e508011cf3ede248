import Mathlib.Logic.Relation
import PredictiveParsing.Grammar.Declaration
import PredictiveParsing.Proofs.Layout

/-!
# What a declaration does

A declaration leaves tokens, productions and nodes alone, or adds one token by a new name, or adds
one production by a new name after its literals have got their tokens. Lowering the body of a
production gives tokens and nodes in turn, and what comes out is all the tokens and then the layout
of the body. Main statements: `lower_eq` and `declares_declare`.
-/
namespace PredictiveParsing.Grammar

open Relation PredictiveParsing.Expr

variable {g g' : Grammar}

def Claims (g g' : Grammar) : Prop :=
  ∃ image span, g.literalDefinition? image = none ∧ g' = g.pushLiteral image span

def Claimed (g g' : Grammar) : Prop := ReflTransGen Claims g g'

theorem Claimed.keeps (h : g.Claimed g') : g'.nodes = g.nodes ∧ g'.productions = g.productions := by
  induction h with
  | refl => exact ⟨rfl, rfl⟩
  | tail _ hclaims ih =>
    obtain ⟨image, span, -, rfl⟩ := hclaims
    exact ih

theorem Claimed.names_eq (h : g.Claimed g') :
    g'.states = g.states ∧ g'.productionNames = g.productionNames := by
  induction h with
  | refl => exact ⟨rfl, rfl⟩
  | tail _ hclaims ih =>
    obtain ⟨image, span, -, rfl⟩ := hclaims
    exact ih

theorem claimed_claimLiteral (g : Grammar) (image : String) (span : Span) :
    g.Claimed (g.claimLiteral image span) := by
  rw [claimLiteral]
  split
  · exact .refl
  · next hnone => exact .single ⟨image, span, hnone, rfl⟩

def claimLiterals (g : Grammar) (literals : List (String × Span)) : Grammar :=
  literals.foldl (fun g (image, span) => g.claimLiteral image span) g

theorem claimed_claimLiterals (g : Grammar) (literals : List (String × Span)) :
    g.Claimed (g.claimLiterals literals) := by
  induction literals generalizing g with
  | nil => exact .refl
  | cons l literals ih => exact (g.claimed_claimLiteral l.1 l.2).trans (ih _)

theorem claimLiterals_append (g : Grammar) (literals others : List (String × Span)) :
    g.claimLiterals (literals ++ others) = (g.claimLiterals literals).claimLiterals others :=
  List.foldl_append

theorem nodes_claimLiterals (g : Grammar) (literals : List (String × Span)) :
    (g.claimLiterals literals).nodes = g.nodes :=
  (g.claimed_claimLiterals literals).keeps.1

def withNodes (g : Grammar) (ns : List Node) : Grammar := { g with nodes := g.nodes ++ ns.toArray }

theorem withNodes_nil (g : Grammar) : g.withNodes [] = g := by simp [withNodes]

theorem withNodes_append (g : Grammar) (ns others : List Node) :
    g.withNodes (ns ++ others) = (g.withNodes ns).withNodes others := by
  simp [withNodes]

theorem claimLiteral_withNodes (g : Grammar) (ns : List Node) (image : String) (span : Span) :
    (g.withNodes ns).claimLiteral image span = (g.claimLiteral image span).withNodes ns := by
  have hdefinition : (g.withNodes ns).literalDefinition? image = g.literalDefinition? image := rfl
  rw [claimLiteral, claimLiteral, hdefinition]
  split <;> rfl

theorem claimLiterals_withNodes (g : Grammar) (ns : List Node) (literals : List (String × Span)) :
    (g.withNodes ns).claimLiterals literals = (g.claimLiterals literals).withNodes ns := by
  induction literals generalizing g with
  | nil => rfl
  | cons l literals ih =>
    have hfirst := claimLiteral_withNodes g ns l.1 l.2
    exact (congrArg (claimLiterals · literals) hfirst).trans (ih _)

theorem toList_foldl_modify {α : Type} (xs : Array α) (is : List Nat) (f : α → α) :
    (is.foldl (fun ys i => ys.modify i f) xs).toList =
      is.foldl (fun ys i => ys.modify i f) xs.toList := by
  rw [List.foldl_hom Array.toList]
  exact fun ys i => Array.toList_modify.symm

/-- Appending a node whose children are the newest roots gives them the layout of its children. -/
theorem pushNode_withNodes (g : Grammar) {base : Nat} (hbase : g.nodes.size = base)
    (production : Nat) (es : List Expr) (partSpan span : Span) {kind : Node.Kind}
    (hkind : kind.children = rootsFrom es base) :
    (g.withNodes (nodesApart production es partSpan base)).pushNode kind span production =
      (g.withNodes (nodesOfAll production es partSpan base (base + nodeCounts es) ++
        [⟨kind, span, none, production⟩]), base + nodeCounts es) := by
  have hsize : (g.withNodes (nodesApart production es partSpan base)).nodes.size =
      base + nodeCounts es := by
    simp [withNodes, length_nodesApart, hbase]
  have hlinked : kind.children.foldl
      (fun ns child => ns.modify child (·.linkTo (base + nodeCounts es)))
        (g.nodes ++ (nodesApart production es partSpan base).toArray) =
      g.nodes ++ (nodesOfAll production es partSpan base (base + nodeCounts es)).toArray := by
    apply Array.toList_inj.1
    rw [toList_foldl_modify, hkind, Array.toList_append, Array.toList_append]
    exact link_roots hbase production es partSpan _
  rw [pushNode]
  simp only [hsize]
  simp only [withNodes, hlinked]
  simp

theorem pushNode_leaf (g : Grammar) (production : Nat) (span : Span) {kind : Node.Kind}
    (hkind : kind.children = []) :
    g.pushNode kind span production =
      (g.withNodes [⟨kind, span, none, production⟩], g.nodes.size) := by
  have hpush := g.pushNode_withNodes rfl production [] .none span hkind
  rwa [nodesApart, withNodes_nil] at hpush

theorem pushNode_body (g : Grammar) {base : Nat} (hbase : g.nodes.size = base) (production : Nat)
    (body : Expr) (span : Span) {kind : Node.Kind} (hkind : kind.children = [body.rootFrom base]) :
    (g.withNodes (nodesFrom production body span base none)).pushNode kind span production =
      (g.withNodes (nodesFrom production body span base (some (base + body.nodeCount)) ++
        [⟨kind, span, none, production⟩]), base + body.nodeCount) := by
  have hpush := g.pushNode_withNodes hbase production [body] span span hkind
  simpa [nodesApart, nodesOfAll, nodeCounts] using hpush

mutual

theorem lower_eq (production : Nat) (e : Expr) (span : Span) (g : Grammar) :
    lower production e span g =
      ((g.claimLiterals (e.literals span)).withNodes
        (nodesFrom production e span g.nodes.size none), e.rootFrom g.nodes.size) := by
  match e with
  | .seq items | .choice items =>
    rw [lower, lowerAll_eq production items]
    exact pushNode_withNodes _ (by rw [nodes_claimLiterals]) production items span span rfl
  | .star body | .plus body | .opt body | .lookahead _ _ (some body) _ =>
    rw [lower, lower_eq production body]
    exact pushNode_body _ (by rw [nodes_claimLiterals]) production body span rfl
  | .located inner body => exact lower_eq production body inner g
  | .literal image =>
    have hnodes : (g.claimLiteral image span).nodes = g.nodes :=
      g.nodes_claimLiterals [(image, span)]
    rw [lower, pushNode_leaf _ production span rfl, hnodes]
    rfl
  | .nonterminal _ | .token _ | .action _ | .lookahead _ _ none _ =>
    exact pushNode_leaf g production span rfl

theorem lowerAll_eq (production : Nat) (es : List Expr) (span : Span) (g : Grammar) :
    lowerAll production es span g =
      ((g.claimLiterals (literalsOfAll es span)).withNodes
        (nodesApart production es span g.nodes.size), rootsFrom es g.nodes.size) := by
  match es with
  | [] => simp [lowerAll, literalsOfAll, claimLiterals, nodesApart, withNodes_nil, rootsFrom]
  | e :: es =>
    have hbase : ((g.claimLiterals (e.literals span)).withNodes
        (nodesFrom production e span g.nodes.size none)).nodes.size =
          g.nodes.size + e.nodeCount := by
      simp [withNodes, nodes_claimLiterals, length_nodesFrom]
    rw [lowerAll, lower_eq production e]
    simp only
    rw [lowerAll_eq production es, hbase, claimLiterals_withNodes, ← withNodes_append,
      ← claimLiterals_append]
    rfl

end

inductive Declares (g : Grammar) : Grammar → Prop
  | kept {g' : Grammar} (htokens : g'.tokens = g.tokens)
      (htokenNames : g'.tokenNames = g.tokenNames)
      (hproductions : g'.productions = g.productions)
      (hproductionNames : g'.productionNames = g.productionNames) (hnodes : g'.nodes = g.nodes) :
      Declares g g'
  | token {t : TokenDef} (hkind : t.kind = g.tokens.size)
      (hname : g.tokenNames.index? t.name = none) (hanonymous : t.anonymous = false) :
      Declares g (g.pushToken t hkind)
  | production {g' : Grammar} {name : String} {resultType : Option String} {span : Span}
      {body : Expr} (hname : g.productionNames.index? name = none) (hclaimed : g.Claimed g') :
      Declares g { g' with
        productionNames := g.productionNames.push name
        productions := g'.productions.push
          ⟨name, g'.productions.size, body.rootFrom g'.nodes.size, resultType, span⟩
        nodes := g'.nodes ++
          (body.nodesFrom g'.productions.size span g'.nodes.size none).toArray
        productions_numbered := g'.productions_numbered.push rfl }

theorem declares_declareToken (g : Grammar) (d : TokenDecl) : g.Declares (g.declareToken d) := by
  rw [declareToken]
  split
  · exact .kept rfl rfl rfl rfl rfl
  · next hname =>
    dsimp only
    split
    · exact .kept rfl rfl rfl rfl rfl
    · exact .token rfl hname rfl

theorem declares_declareProduction (g : Grammar) (name : String) (resultType : Option String)
    (span : Span) (body : Expr) : g.Declares (g.declareProduction name resultType span body) := by
  rw [declareProduction, Symbols.add]
  cases hname : g.productionNames.index? name with
  | some i => exact .kept rfl rfl rfl rfl rfl
  | none =>
    have hclaimed := g.claimed_claimLiterals (body.literals span)
    obtain ⟨hnodes, hproductions⟩ := hclaimed.keeps
    have hdeclares := @Declares.production g _ name resultType span body hname hclaimed
    simp only [lower_eq, withNodes]
    simpa only [hnodes, hproductions] using hdeclares

theorem declares_declare (g : Grammar) (d : Declaration) : g.Declares (g.declare d) := by
  cases d with
  | state name span =>
    rw [declare, declareState]
    split
    · exact .kept rfl rfl rfl rfl rfl
    · exact .kept rfl rfl rfl rfl rfl
  | token decl => exact g.declares_declareToken decl
  | production name resultType span body =>
    exact g.declares_declareProduction name resultType span body

theorem finish_keeps (g : Grammar) : g.finish.nodes = g.nodes ∧
    g.finish.productions = g.productions ∧ g.finish.productionNames = g.productionNames := by
  rw [finish]
  split <;> exact ⟨rfl, rfl, rfl⟩

end PredictiveParsing.Grammar
