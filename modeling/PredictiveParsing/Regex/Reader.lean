import PredictiveParsing.Regex.Surface
import PredictiveParsing.Text.Blank
import PredictiveParsing.Text.Letter

/-!
# Reading a regular expression

Every reader takes the characters still to be read and gives what it found together with the rest,
or `none` where the text is not a regular expression. In extended mode white space and comments,
which begin with a number sign and end with the line, are skipped between the parts of an
expression.
-/
namespace PredictiveParsing.Regex

def skipBlanks (comment : Bool) : List Char → List Char
  | [] => []
  | c :: cs =>
    if comment then skipBlanks (c ≠ '\n') cs
    else if isBlank c then skipBlanks false cs
    else if c = '#' then skipBlanks true cs
    else c :: cs

def skip (extended : Bool) (cs : List Char) : List Char :=
  if extended then skipBlanks false cs else cs

/-- The character that a hyphen in a class is judged by: in extended mode the first one that is
neither white space nor the number sign that opens a comment. -/
def peek (extended comment : Bool) : List Char → Option Char
  | [] => none
  | c :: cs =>
    if !extended then some c
    else if isBlank c then peek extended comment cs
    else if !comment && c = '#' then peek extended true cs
    else some c

def isMeta (c : Char) : Bool :=
  ['\\', '.', '+', '*', '?', '(', ')', '|', '[', ']', '\x7b', '\x7d', '^', '$', '#', '&', '-', '~'].contains c

def isEscapable (c : Char) : Bool :=
  isMeta c || (c.toNat < 0x80 && !c.isAlphanum && c ≠ '<' && c ≠ '>')

def scalar? (n : Nat) : Option Char := if n.isValidChar then some (Char.ofNat n) else none

def hexValue? (c : Char) : Option Nat :=
  if '0' ≤ c ∧ c ≤ '9' then some (c.toNat - '0'.toNat)
  else if 'a' ≤ c ∧ c ≤ 'f' then some (c.toNat - 'a'.toNat + 10)
  else if 'A' ≤ c ∧ c ≤ 'F' then some (c.toNat - 'A'.toNat + 10)
  else none

def readHexDigits (extended : Bool) : (count value : Nat) → List Char → Option (Nat × List Char)
  | 0, value, cs => some (value, cs)
  | _ + 1, _, [] => none
  | count + 1, value, c :: cs =>
    match hexValue? c with
    | some d => readHexDigits extended count (16 * value + d) (skip extended cs)
    | none => none

def readHexBraced (extended : Bool) :
    (fuel : Nat) → (value : Option Nat) → List Char → Option (Nat × List Char)
  | 0, _, _ => none
  | _ + 1, _, [] => none
  | fuel + 1, value, c :: cs =>
    if c = '\x7d' then value.map (·, skip extended cs)
    else match hexValue? c with
      | some d => readHexBraced extended fuel (some (16 * value.getD 0 + d)) (skip extended cs)
      | none => none

def readHex (extended : Bool) (digits : Nat) (cs : List Char) : Option (Literal × List Char) := do
  match skip extended cs with
  | '\x7b' :: cs =>
    let (value, rest) ← readHexBraced extended (cs.length + 1) none (skip extended cs)
    let c ← scalar? value
    some (⟨c, false⟩, rest)
  | cs =>
    let (value, rest) ← readHexDigits extended digits 0 cs
    let c ← scalar? value
    some (⟨c, digits == 2⟩, rest)

inductive Primitive
  | literal (l : Literal)
  | assertion (a : Assertion)
  | shorthand (s : Shorthand) (negated : Bool)

def Primitive.surface : Primitive → Surface
  | literal l => .literal l
  | assertion a => .assertion a
  | shorthand s negated => .shorthand s negated

def Primitive.classItem? : Primitive → Option ClassBody
  | literal l => some (.literal l)
  | assertion _ => none
  | shorthand s negated => some (.shorthand s negated)

def Primitive.literal? : Primitive → Option Literal
  | literal l => some l
  | _ => none

def readBoundaryName (extended : Bool) : (fuel : Nat) → List Char → List Char × List Char
  | 0, cs => ([], cs)
  | _ + 1, [] => ([], [])
  | fuel + 1, c :: cs =>
    if c.isAlpha || c = '-' then
      let (name, rest) := readBoundaryName extended fuel (skip extended cs)
      (c :: name, rest)
    else ([], c :: cs)

def readWordBoundary (extended : Bool) (cs : List Char) : Option (Assertion × List Char) :=
  match cs with
  | '\x7b' :: r =>
    match skip extended r with
    | [] => none
    | r =>
      match readBoundaryName extended r.length r with
      | ([], _) => some (.wordBoundary, cs)
      | (name, '\x7d' :: rest) =>
        match String.ofList name with
        | "start" => some (.wordStart, rest)
        | "end" => some (.wordEnd, rest)
        | "start-half" => some (.wordStartHalf, rest)
        | "end-half" => some (.wordEndHalf, rest)
        | _ => none
      | _ => none
  | _ => some (.wordBoundary, cs)

def readEscape (extended : Bool) : List Char → Option (Primitive × List Char)
  | [] => none
  | c :: cs =>
    match c with
    | 'x' => (readHex extended 2 cs).map fun (l, rest) => (.literal l, rest)
    | 'u' => (readHex extended 4 cs).map fun (l, rest) => (.literal l, rest)
    | 'U' => (readHex extended 8 cs).map fun (l, rest) => (.literal l, rest)
    | 'd' => some (.shorthand .digit false, cs)
    | 'D' => some (.shorthand .digit true, cs)
    | 's' => some (.shorthand .space false, cs)
    | 'S' => some (.shorthand .space true, cs)
    | 'w' => some (.shorthand .word false, cs)
    | 'W' => some (.shorthand .word true, cs)
    | 'a' => some (.literal ⟨'\x07', false⟩, cs)
    | 'f' => some (.literal ⟨'\x0c', false⟩, cs)
    | 't' => some (.literal ⟨'\t', false⟩, cs)
    | 'n' => some (.literal ⟨'\n', false⟩, cs)
    | 'r' => some (.literal ⟨'\r', false⟩, cs)
    | 'v' => some (.literal ⟨'\x0b', false⟩, cs)
    | 'A' => some (.assertion .startText, cs)
    | 'z' => some (.assertion .endText, cs)
    | 'b' => (readWordBoundary extended cs).map fun (a, rest) => (.assertion a, rest)
    | 'B' => some (.assertion .notWordBoundary, cs)
    | '<' => some (.assertion .wordStart, cs)
    | '>' => some (.assertion .wordEnd, cs)
    | c => if isEscapable c then some (.literal ⟨c, false⟩, cs) else none

/-! ## Classes -/

def NamedClass.ofName? : String → Option NamedClass
  | "alnum" => some .alnum
  | "alpha" => some .alpha
  | "ascii" => some .ascii
  | "blank" => some .blank
  | "cntrl" => some .cntrl
  | "digit" => some .digit
  | "graph" => some .graph
  | "lower" => some .lower
  | "print" => some .print
  | "punct" => some .punct
  | "space" => some .space
  | "upper" => some .upper
  | "word" => some .word
  | "xdigit" => some .xdigit
  | _ => none

def readNamedClass? : List Char → Option (ClassBody × List Char)
  | ':' :: cs =>
    let (negated, cs) := match cs with
      | '^' :: cs => (true, cs)
      | cs => (false, cs)
    match cs.dropWhile (· ≠ ':') with
    | ':' :: ']' :: rest =>
      (NamedClass.ofName? (String.ofList (cs.takeWhile (· ≠ ':')))).map (.named · negated, rest)
    | _ => none
  | _ => none

def readClassPrimitive (extended : Bool) : List Char → Option (Primitive × List Char)
  | [] => none
  | '\\' :: cs => readEscape extended cs
  | c :: cs => some (.literal ⟨c, false⟩, cs)

def readClassItem (extended : Bool) (cs : List Char) : Option (ClassBody × List Char) := do
  let (first, rest) ← readClassPrimitive extended cs
  match skip extended rest with
  | [] => none
  | '-' :: r =>
    if peek extended false r = some ']' || peek extended false r = some '-' then
      let item ← first.classItem?
      some (item, '-' :: r)
    else
      let (second, rest) ← readClassPrimitive extended (skip extended r)
      let lo ← first.literal?
      let hi ← second.literal?
      if lo.char ≤ hi.char then some (.range lo hi, rest) else none
  | rest =>
    let item ← first.classItem?
    some (item, rest)

def readLeadingHyphens (extended : Bool) : (fuel : Nat) → List Char → List ClassBody × List Char
  | 0, cs => ([], cs)
  | fuel + 1, '-' :: cs =>
    let (items, rest) := readLeadingHyphens extended fuel (skip extended cs)
    (.literal ⟨'-', false⟩ :: items, rest)
  | _ + 1, cs => ([], cs)

def readClassStart (extended : Bool) (cs : List Char) : Bool × List ClassBody × List Char :=
  let (negated, cs) := match skip extended cs with
    | '^' :: cs => (true, skip extended cs)
    | cs => (false, cs)
  match readLeadingHyphens extended cs.length cs with
  | ([], ']' :: cs) => (negated, [.literal ⟨']', false⟩], skip extended cs)
  | (items, cs) => (negated, items, cs)

abbrev PendingOperator := Option (SetOperator × ClassBody)

def PendingOperator.close (pending : PendingOperator) (items : List ClassBody) : ClassBody :=
  match pending with
  | none => .ofUnion items.reverse
  | some (op, left) => .binary op left (.ofUnion items.reverse)

/-- The rest of a class up to its closing bracket. The items since the last operator come in reverse
order; `fuel` bounds the parts read. -/
def readClassBody (extended : Bool) :
    (fuel : Nat) → PendingOperator → List ClassBody → List Char → Option (ClassBody × List Char)
  | 0, _, _, _ => none
  | fuel + 1, pending, items, cs =>
    match skip extended cs with
    | [] => none
    | '[' :: r =>
      match readNamedClass? r with
      | some (item, rest) => readClassBody extended fuel pending (item :: items) rest
      | none =>
        let (negated, first, r) := readClassStart extended r
        match readClassBody extended fuel none first.reverse r with
        | some (body, rest) =>
          readClassBody extended fuel pending (.bracketed negated body :: items) rest
        | none => none
    | ']' :: rest => some (pending.close items, rest)
    | '&' :: '&' :: r => readClassBody extended fuel (some (.intersection, pending.close items)) [] r
    | '-' :: '-' :: r => readClassBody extended fuel (some (.difference, pending.close items)) [] r
    | '~' :: '~' :: r =>
      readClassBody extended fuel (some (.symmetricDifference, pending.close items)) [] r
    | cs =>
      match readClassItem extended cs with
      | some (item, rest) => readClassBody extended fuel pending (item :: items) rest
      | none => none

def readClass (extended : Bool) (cs : List Char) : Option (Surface × List Char) :=
  let (negated, first, r) := readClassStart extended cs
  (readClassBody extended (cs.length + 1) none first.reverse r).map fun (body, rest) =>
    (.bracketed negated body, rest)

/-! ## Repetitions -/

def readGreed : List Char → Bool × List Char
  | '?' :: cs => (false, cs)
  | cs => (true, cs)

def readDigits (extended : Bool) : (fuel : Nat) → Option Nat → List Char → Option Nat × List Char
  | 0, value, cs => (value, cs)
  | _ + 1, value, [] => (value, [])
  | fuel + 1, value, c :: cs =>
    if c.isDigit then
      readDigits extended fuel (some (10 * value.getD 0 + (c.toNat - '0'.toNat))) (skip extended cs)
    else (value, c :: cs)

def maxCount : Nat := 4294967295

def readCount (extended : Bool) (cs : List Char) : Option (Nat × List Char) :=
  match readDigits extended cs.length none (cs.dropWhile isBlank) with
  | (some n, rest) => if n ≤ maxCount then some (n, skip extended (rest.dropWhile isBlank)) else none
  | (none, _) => none

def readCounts (extended : Bool) (cs : List Char) : Option ((Nat × Option Nat) × List Char) := do
  let (min, rest) ← readCount extended (skip extended cs)
  match rest with
  | '\x7d' :: rest => some ((min, some min), rest)
  | ',' :: r =>
    match skip extended r with
    | '\x7d' :: rest => some ((min, none), rest)
    | r =>
      let (max, rest) ← readCount extended r
      match rest with
      | '\x7d' :: rest => if min ≤ max then some ((min, some max), rest) else none
      | _ => none
  | _ => none

def repeatLast (min : Nat) (max : Option Nat) (greedy : Bool) : List Surface → Option (List Surface)
  | [] => none
  | .flags _ :: _ => none
  | s :: ss => some (.repetition min max greedy s :: ss)

/-! ## Groups -/

def Flag.ofChar? : Char → Option Flag
  | 'i' => some .ignoreCase
  | 'm' => some .multiLine
  | 's' => some .dotAll
  | 'U' => some .swapGreed
  | 'u' => some .unicode
  | 'R' => some .crlf
  | 'x' => some .extended
  | _ => none

def readFlags (on dangling : Bool) (seen : FlagChange) : List Char → Option (FlagChange × List Char)
  | [] => none
  | c :: cs =>
    if c = ':' ∨ c = ')' then if dangling then none else some (seen, c :: cs)
    else if c = '-' then if on then readFlags false true seen cs else none
    else match Flag.ofChar? c with
      | some f => if seen.any (·.1 = f) then none else readFlags on false (seen ++ [(f, on)]) cs
      | none => none

def FlagChange.lookup? (change : FlagChange) (f : Flag) : Option Bool :=
  (change.find? (·.1 = f)).map (·.2)

def isNameChar (first : Bool) (c : Char) : Bool :=
  if first then c = '_' || isAlphabetic c
  else c = '_' || c = '.' || c = '[' || c = ']' || isAlphanumeric c

def readGroupName (cs : List Char) : Option (String × List Char) :=
  match cs.takeWhile (· ≠ '>'), cs.dropWhile (· ≠ '>') with
  | c :: name, _ :: rest =>
    if isNameChar true c && name.all (isNameChar false) then some (String.ofList (c :: name), rest)
    else none
  | _, _ => none

structure Reader where
  rest : List Char
  extended : Bool
  groups : Nat
  names : List String

inductive Opening
  | flags (change : FlagChange)
  | group (kind : GroupKind)

def Reader.openNamed (r : Reader) (cs : List Char) : Option (Opening × Reader) := do
  let (name, rest) ← readGroupName cs
  if r.names.contains name then none
  else some (.group (.capture (r.groups + 1) (some name)),
    { r with rest := rest, groups := r.groups + 1, names := name :: r.names })

def Reader.openGroup (r : Reader) (cs : List Char) : Option (Opening × Reader) :=
  match skip r.extended cs with
  | '?' :: '=' :: _ => none
  | '?' :: '!' :: _ => none
  | '?' :: '<' :: '=' :: _ => none
  | '?' :: '<' :: '!' :: _ => none
  | '?' :: 'P' :: '<' :: cs => r.openNamed cs
  | '?' :: '<' :: cs => r.openNamed cs
  | '?' :: cs =>
    match readFlags true false [] cs with
    | some (change, ':' :: rest) => some (.group (.plain change), { r with rest := rest })
    | some ([], _) => none
    | some (change, _ :: rest) => some (.flags change, { r with rest := rest })
    | _ => none
  | cs => some (.group (.capture (r.groups + 1) none), { r with rest := cs, groups := r.groups + 1 })

def closeBranches (branches : List Surface) (parts : List Surface) : Surface :=
  match branches with
  | [] => .ofConcat parts.reverse
  | branches => .alternation (.ofConcat parts.reverse :: branches).reverse

def extendedAfter (change : FlagChange) (extended : Bool) : Bool :=
  (change.lookup? .extended).getD extended

/-- Reads to the end of the enclosing group or of the text. The branches finished so far and the
parts of the branch under way come in reverse order; `fuel` bounds the parts read. -/
def Reader.branches :
    (fuel : Nat) → (branches parts : List Surface) → Reader → Option (Surface × Reader)
  | 0, _, _, _ => none
  | fuel + 1, branches, parts, r =>
    let cs := skip r.extended r.rest
    let goOn (parts : List Surface) (rest : List Char) :=
      Reader.branches fuel branches parts { r with rest := rest }
    match cs with
    | [] => some (closeBranches branches parts, { r with rest := [] })
    | ')' :: _ => some (closeBranches branches parts, { r with rest := cs })
    | '|' :: rest =>
      Reader.branches fuel (.ofConcat parts.reverse :: branches) [] { r with rest := rest }
    | '(' :: rest =>
      match r.openGroup rest with
      | none => none
      | some (.flags change, r') =>
        Reader.branches fuel branches (.flags change :: parts)
          { r' with extended := extendedAfter change r.extended }
      | some (.group kind, r') =>
        let inner := match kind with
          | .plain change => { r' with extended := extendedAfter change r.extended }
          | .capture _ _ => r'
        match Reader.branches fuel [] [] inner with
        | some (body, ⟨')' :: rest, _, groups, names⟩) =>
          Reader.branches fuel branches (.group kind body :: parts) ⟨rest, r.extended, groups, names⟩
        | _ => none
    | '[' :: rest =>
      match readClass r.extended rest with
      | some (s, rest) => goOn (s :: parts) rest
      | none => none
    | '?' :: rest =>
      let (greedy, rest) := readGreed rest
      match repeatLast 0 (some 1) greedy parts with
      | some parts => goOn parts rest
      | none => none
    | '*' :: rest =>
      let (greedy, rest) := readGreed rest
      match repeatLast 0 none greedy parts with
      | some parts => goOn parts rest
      | none => none
    | '+' :: rest =>
      let (greedy, rest) := readGreed rest
      match repeatLast 1 none greedy parts with
      | some parts => goOn parts rest
      | none => none
    | '\x7b' :: rest =>
      match readCounts r.extended rest with
      | some ((min, max), rest) =>
        let (greedy, rest) := readGreed (skip r.extended rest)
        match repeatLast min max greedy parts with
        | some parts => goOn parts rest
        | none => none
      | none => none
    | '.' :: rest => goOn (.dot :: parts) rest
    | '^' :: rest => goOn (.assertion .startLine :: parts) rest
    | '$' :: rest => goOn (.assertion .endLine :: parts) rest
    | '\\' :: rest =>
      match readEscape r.extended rest with
      | some (p, rest) => goOn (p.surface :: parts) rest
      | none => none
    | c :: rest => goOn (.literal ⟨c, false⟩ :: parts) rest

def Surface.ofString? (text : String) : Option Surface :=
  let cs := text.toList
  match Reader.branches (cs.length + 1) [] [] ⟨cs, false, 0, []⟩ with
  | some (s, ⟨[], _, _, _⟩) => if s.depth ≤ nestLimit then some s else none
  | _ => none

end PredictiveParsing.Regex
