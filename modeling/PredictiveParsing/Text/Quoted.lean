import PredictiveParsing.Text.Escaped

/-!
# Quoted text

Messages show strings between double quotes and characters between single quotes. The quote itself,
the backslash and four controls are written with a backslash, and characters without a picture of
their own by their number in lower case hexadecimal digits.
-/
namespace PredictiveParsing.Quoted

def escape (quote : Char) (c : Char) : List Char :=
  if c = '\x00' then ['\\', '0']
  else if c = '\t' then ['\\', 't']
  else if c = '\r' then ['\\', 'r']
  else if c = '\n' then ['\\', 'n']
  else if c = '\\' ∨ c = quote then ['\\', c]
  else if isEscaped c then ['\\', 'u', '\x7b'] ++ Nat.toDigits 16 c.toNat ++ ['\x7d']
  else [c]

def string (s : String) : String :=
  String.ofList ('"' :: s.toList.flatMap (escape '"') ++ ['"'])

def char (c : Char) : String := String.ofList ('\x27' :: escape '\x27' c ++ ['\x27'])

end PredictiveParsing.Quoted
