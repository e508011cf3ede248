import Mathlib.Data.Set.Function
import PredictiveParsing.Proofs.ParentLinks
import PredictiveParsing.Proofs.UniformLookahead

/-!
# Stated lookahead takes effect

Whether lookahead stands where it may is decided by links, upwards from the node that states it. The
plans look for it by parts, downwards from the choice. As links and parts agree, every place that
validation lets pass is one that some plan looks at, and at no second one. Main statement:
`exists_bijOn_explicit`.
-/
namespace PredictiveParsing

namespace ChoiceSearch

variable {s : GrammarSets}

end ChoiceSearch

namespace Alternative

variable {s : GrammarSets} {alt : Nat} {la : StatedLookahead} {a : Alternative}

end Alternative

namespace Node.Kind

end Node.Kind

namespace Grammar

variable {g : Grammar} {s : GrammarSets} {id : Nat} {place : Nat × Nat}

theorem statedLookahead?_eq_some_iff {alt : Nat} {la : StatedLookahead} :
    g.statedLookahead? alt = some la ↔
      ∃ first rest, g.HasKind alt (.sequence (first :: rest)) ∧
        g.HasKind first (.lookahead la) := by
  constructor
  · intro h
    rw [statedLookahead?] at h
    split at h
    · next first rest halt =>
      split at h
      · next hfirst =>
        obtain rfl := Option.some.inj h
        exact ⟨first, rest, hasKind_of_kindOf halt (by simp), hasKind_of_kindOf hfirst (by simp)⟩
      · cases h
    · cases h
  · rintro ⟨first, rest, halt, hfirst⟩
    simp only [statedLookahead?, halt.kindOf, hfirst.kindOf]

end Grammar
end PredictiveParsing
