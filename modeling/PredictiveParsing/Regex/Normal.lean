import PredictiveParsing.Regex.ScalarSet

/-!
# Regular expressions in normal form

The form that regular expressions are brought into before they become patterns. The functions that
build it keep it small: concatenations and alternations are spliced into their kind, adjacent
literals are joined, alternatives that are all single characters or all classes become one class of
scalar values, and a beginning that all alternatives share is written once. A capturing group is a
unit that none of this looks into.
-/
namespace PredictiveParsing

namespace Regex

inductive Look
  | start
  | endOfText
  | startLF
  | endLF
  | startCRLF
  | endCRLF
  | wordAscii
  | wordAsciiNegate
  | wordUnicode
  | wordUnicodeNegate
  | wordStartAscii
  | wordEndAscii
  | wordStartUnicode
  | wordEndUnicode
  | wordStartHalfAscii
  | wordEndHalfAscii
  | wordStartHalfUnicode
  | wordEndHalfUnicode
deriving DecidableEq

def Look.name : Look → String
  | start => "Start"
  | endOfText => "End"
  | startLF => "StartLF"
  | endLF => "EndLF"
  | startCRLF => "StartCRLF"
  | endCRLF => "EndCRLF"
  | wordAscii => "WordAscii"
  | wordAsciiNegate => "WordAsciiNegate"
  | wordUnicode => "WordUnicode"
  | wordUnicodeNegate => "WordUnicodeNegate"
  | wordStartAscii => "WordStartAscii"
  | wordEndAscii => "WordEndAscii"
  | wordStartUnicode => "WordStartUnicode"
  | wordEndUnicode => "WordEndUnicode"
  | wordStartHalfAscii => "WordStartHalfAscii"
  | wordEndHalfAscii => "WordEndHalfAscii"
  | wordStartHalfUnicode => "WordStartHalfUnicode"
  | wordEndHalfUnicode => "WordEndHalfUnicode"

inductive ClassKind
  | unicode
  | bytes
deriving DecidableEq

end Regex

inductive Regex
  | empty
  | literal (text : List Char)
  | charClass (kind : Regex.ClassKind) (ranges : List Interval)
  | look (l : Regex.Look)
  | repetition (min : Nat) (max : Option Nat) (greedy : Bool) (body : Regex)
  | capture (index : Nat) (body : Regex)
  | concat (items : List Regex)
  | alternation (items : List Regex)
deriving Inhabited

namespace Regex

mutual

def same : Regex → Regex → Bool
  | .empty, .empty => true
  | .literal s, .literal t => s == t
  | .charClass k r, .charClass l s => k == l && r == s
  | .look k, .look l => k == l
  | .repetition m n g a, .repetition m' n' g' b => m == m' && n == n' && g == g' && a.same b
  | .capture i a, .capture j b => i == j && a.same b
  | .concat as, .concat bs => sameAll as bs
  | .alternation as, .alternation bs => sameAll as bs
  | _, _ => false

def sameAll : List Regex → List Regex → Bool
  | [], [] => true
  | a :: as, b :: bs => a.same b && sameAll as bs
  | _, _ => false

end

mutual

def onlyEmpty : Regex → Bool
  | .empty => true
  | .literal _ => false
  | .charClass _ _ => false
  | .look _ => true
  | .repetition _ max _ body => max.isSome && body.onlyEmpty
  | .capture _ body => body.onlyEmpty
  | .concat items => onlyEmptyAll items
  | .alternation items => onlyEmptyAll items

def onlyEmptyAll : List Regex → Bool
  | [] => true
  | a :: as => a.onlyEmpty && onlyEmptyAll as

end

mutual

def size : Regex → Nat
  | .empty => 1
  | .literal _ => 1
  | .charClass _ _ => 1
  | .look _ => 1
  | .repetition _ _ _ body => body.size + 1
  | .capture _ body => body.size + 1
  | .concat items => sizeAll items + 1
  | .alternation items => sizeAll items + 1

def sizeAll : List Regex → Nat
  | [] => 0
  | a :: as => a.size + sizeAll as

end

def fail : Regex := .charClass .bytes []

def ofClass (kind : ClassKind) : List Interval → Regex
  | [] => fail
  | [r] => if r.lo = r.hi then .literal [Char.ofNat r.lo] else .charClass kind [r]
  | rs => .charClass kind rs

def ofRepetition (min : Nat) (max : Option Nat) (greedy : Bool) (body : Regex) : Regex :=
  let (min, max) :=
    if body.onlyEmpty then (Nat.min min 1, some (Nat.min (max.getD 1) 1)) else (min, max)
  if min = 0 ∧ max = some 0 then .empty
  else if min = 1 ∧ max = some 1 then body
  else .repetition min max greedy body

def concatParts : Regex → List Regex
  | .empty => []
  | .concat items => items
  | r => [r]

def consPart (r : Regex) (parts : List Regex) : List Regex :=
  match r, parts with
  | .literal s, .literal t :: parts => .literal (s ++ t) :: parts
  | r, parts => r :: parts

def ofConcat (items : List Regex) : Regex :=
  match (items.flatMap concatParts).foldr consPart [] with
  | [] => .empty
  | [r] => r
  | parts => .concat parts

def alternationParts : Regex → List Regex
  | .alternation items => items
  | r => [r]

def singleChars? : List Regex → Option (List Char)
  | [] => some []
  | .literal [c] :: rs => (singleChars? rs).map (c :: ·)
  | _ => none

def classes? : List Regex → Option (List Interval)
  | [] => some []
  | .charClass _ rs :: rest => (classes? rest).map (rs ++ ·)
  | _ => none

def commonLength : List Regex → List Regex → Nat
  | a :: as, b :: bs => if a.same b then commonLength as bs + 1 else 0
  | _, _ => 0

def concats? : List Regex → Option (List (List Regex))
  | [] => some []
  | .concat parts :: rs => (concats? rs).map (parts :: ·)
  | _ => none

def sharedLength (as : List Regex) (bss : List (List Regex)) : Nat :=
  bss.foldl (fun n bs => min n (commonLength as bs)) as.length

/-- An alternation; `fuel` bounds how often a shared beginning is written in front. -/
def ofAlternationWithin : (fuel : Nat) → List Regex → Regex
  | fuel, items =>
    match items.flatMap alternationParts with
    | [] => fail
    | [r] => r
    | parts =>
      match singleChars? parts with
      | some cs => ofClass .unicode (ScalarSet.ofRanges (cs.map fun c => ⟨c.toNat, c.toNat⟩))
      | none =>
        match classes? parts with
        | some rs => ofClass .unicode (ScalarSet.ofRanges rs)
        | none =>
          match fuel, concats? parts with
          | fuel + 1, some (as :: bss) =>
            match sharedLength as bss with
            | 0 => .alternation parts
            | n =>
              ofConcat (as.take n ++
                [ofAlternationWithin fuel ((as :: bss).map fun bs => ofConcat (bs.drop n))])
          | _, _ => .alternation parts

def ofAlternation (items : List Regex) : Regex := ofAlternationWithin (sizeAll items) items

end Regex
end PredictiveParsing
