import PredictiveParsing.Scanner.Table
import PredictiveParsing.Text.Cursor
import PredictiveParsing.Text.Quoted

/-!
# The longest-match scanner

A match runs the automaton of the current mode over the upcoming characters until it has no
transition or the characters run out, and then gives back everything after the last accepting state.
The state in which the automaton starts does not count as accepting, so a match is never empty. The
kind of the match decides the next mode and whether its text is handed over, dropped, or kept as the
beginning of the next token's image.
-/
namespace PredictiveParsing

inductive ScanError
  | noMatch (found : Char) (mode : String) (span : Span)
  | unexpectedEof (mode : String) (span : Span)
  | cursor (error : CursorError)
deriving DecidableEq

def ScanError.message : ScanError → String
  | noMatch found mode span =>
    s!"no token matches {Quoted.char found} in lexical state {mode} at {span.display}"
  | unexpectedEof mode _ => s!"input ended inside a partial token in lexical state {mode}"
  | cursor error => error.message

structure ScannedToken where
  kind : Nat
  image : String
  span : Span
  special : Bool
deriving DecidableEq

structure ScanStats where
  unreads : Nat
  /-- Characters taken from the input, each counted once. -/
  chars : Nat
  attempts : Nat
deriving DecidableEq

structure Scanner where
  table : ScanTable
  mode : Nat
  /-- Characters that were read and given back, in the order in which they come again. -/
  unread : List Char
  input : List Char
  /-- Text kept for the next token. -/
  image : String
  imageSpan : Option Span
  cursor : Cursor
  finished : Bool
  stats : ScanStats

namespace Scanner

def new (table : ScanTable) (input : List Char) : Scanner where
  table := table
  mode := table.initialMode
  unread := []
  input := input
  image := ""
  imageSpan := none
  cursor := .new
  finished := false
  stats := ⟨0, 0, 0⟩

def begin (s : Scanner) (mode : Nat) : Scanner := { s with mode := mode }

def upcoming (s : Scanner) : List Char := s.unread ++ s.input

def read? (s : Scanner) : Option (Char × Scanner) :=
  match s.unread, s.input with
  | c :: unread, _ => some (c, { s with unread := unread, cursor := s.cursor.advance c })
  | [], c :: input =>
    some (c, { s with
      input := input
      cursor := s.cursor.advance c
      stats := { s.stats with chars := s.stats.chars + 1 } })
  | [], [] => none

def unread1 (s : Scanner) (c : Char) : Except CursorError Scanner :=
  match s.cursor.retreat c with
  | (cursor, none) =>
    .ok { s with
      unread := c :: s.unread
      cursor := cursor
      stats := { s.stats with unreads := s.stats.unreads + 1 } }
  | (_, some e) => .error e

structure Run where
  scanner : Scanner
  state : Nat
  lexeme : List Char
  best : Option (Nat × Nat)

def Run.extend : (fuel : Nat) → Run → Run
  | 0, r => r
  | fuel + 1, r =>
    match r.scanner.read? with
    | none => r
    | some (c, scanner) =>
      let lexeme := c :: r.lexeme
      match r.scanner.table.next? r.scanner.mode r.state c with
      | none => { r with scanner := scanner, lexeme := lexeme }
      | some state =>
        let best := match r.scanner.table.accept? r.scanner.mode state with
          | some kind => some (kind, lexeme.length)
          | none => r.best
        Run.extend fuel ⟨scanner, state, lexeme, best⟩

def Run.kept (r : Run) : Nat := (r.best.map (·.2)).getD 0

def attempt (s : Scanner) : Run := Run.extend s.upcoming.length ⟨s, s.table.start s.mode, [], none⟩

def counted (s : Scanner) : Scanner :=
  { s with stats := { s.stats with attempts := s.stats.attempts + 1 } }

def giveBack (s : Scanner) : (n : Nat) → (lexeme : List Char) → Except CursorError (Scanner × List Char)
  | 0, lexeme => .ok (s, lexeme)
  | _ + 1, [] => .ok (s, [])
  | n + 1, c :: lexeme =>
    match s.unread1 c with
    | .ok s => s.giveBack n lexeme
    | .error e => .error e

inductive Match
  | found (kind : Nat) (lexeme : List Char)
  | atEnd
  | failed (error : ScanError)

def Run.outcome (r : Run) (s : Scanner) (lexeme : List Char) : Match :=
  match r.best with
  | some (kind, _) => .found kind lexeme.reverse
  | none =>
    match s.unread with
    | found :: _ =>
      .failed (.noMatch found (s.table.modeName s.mode)
        { s.cursor.span with stop := s.cursor.span.stop.next })
    | [] => .atEnd

/-- The longest match at the cursor. A failed attempt leaves mode, cursor and upcoming characters as
they were. -/
def tryMatch (s : Scanner) : Scanner × Match :=
  let r := s.counted.attempt
  match r.scanner.giveBack (r.lexeme.length - r.kept) r.lexeme with
  | .error e => (r.scanner, .failed (.cursor e))
  | .ok (s, lexeme) => (s, r.outcome s lexeme)

def imageSpanWith (s : Scanner) (span : Span) : Span :=
  match s.imageSpan with
  | some pending => pending.merge span
  | none => span

def settle (s : Scanner) (kind : Nat) (lexeme : List Char) : Scanner × Option ScannedToken :=
  let span := s.cursor.span
  let s := { s with
    cursor := s.cursor.commit
    mode := (s.table.nextMode? kind).getD s.mode }
  match s.table.disposition kind with
  | .skip => ({ s with image := "", imageSpan := none }, none)
  | .more =>
    ({ s with image := s.image ++ String.ofList lexeme, imageSpan := some (s.imageSpanWith span) }, none)
  | disposition =>
    ({ s with image := "", imageSpan := none },
      some ⟨kind, s.image ++ String.ofList lexeme, s.imageSpanWith span, disposition = .special⟩)

def finish (s : Scanner) : Scanner × Except ScanError ScannedToken :=
  let s := { s with finished := true }
  if s.image.isEmpty then (s, .ok ⟨eofKind, "", s.cursor.span, false⟩)
  else (s, .error (.unexpectedEof (s.table.modeName s.mode) (s.imageSpan.getD s.cursor.span)))

def scanToken : (fuel : Nat) → Scanner → Scanner × Except ScanError ScannedToken
  | 0, s => s.finish
  | fuel + 1, s =>
    match s.tryMatch with
    | (s, .failed e) => (s, .error e)
    | (s, .atEnd) => s.finish
    | (s, .found kind lexeme) =>
      match s.settle kind lexeme with
      | (s, some token) => (s, .ok token)
      | (s, none) => scanToken fuel s

def tryNext (s : Scanner) : Scanner × Except ScanError (Option ScannedToken) :=
  if s.finished then (s, .ok none)
  else match scanToken (s.upcoming.length + 1) s with
    | (s, .ok token) => (s, .ok (some token))
    | (s, .error e) => (s, .error e)

def next (s : Scanner) : Scanner × Option (Except ScanError ScannedToken) :=
  match s.tryNext with
  | (s, .ok none) => (s, none)
  | (s, .ok (some token)) => (s, some (.ok token))
  | (s, .error e) => ({ s with finished := true }, some (.error e))

def itemsWithin : (fuel : Nat) → Scanner → Scanner × List (Except ScanError ScannedToken)
  | 0, s => (s, [])
  | fuel + 1, s =>
    match s.next with
    | (s, none) => (s, [])
    | (s, some item) =>
      let (s, rest) := itemsWithin fuel s
      (s, item :: rest)

def items (s : Scanner) : Scanner × List (Except ScanError ScannedToken) :=
  itemsWithin (s.upcoming.length + 2) s

end Scanner
end PredictiveParsing
