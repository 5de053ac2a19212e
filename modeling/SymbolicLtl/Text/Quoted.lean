import SymbolicLtl.Text.CharClass

/-! Quoted text: printable characters stand for themselves, all others are escaped. -/
namespace SymbolicLtl.Text

/-- The last `width` hexadecimal digits of `n`, in lower case. -/
def hexDigits : (width n : Nat) → List Char
  | 0, _ => []
  | width + 1, n => hexDigits width (n / 16) ++ [Nat.digitChar (n % 16)]

/-- The characters with an escape of their own. -/
def shortEscape (c : Char) : Option Char :=
  match c.toNat with
  | 7 => some 'a'
  | 8 => some 'b'
  | 9 => some 't'
  | 10 => some 'n'
  | 11 => some 'v'
  | 12 => some 'f'
  | 13 => some 'r'
  | 92 => some '\\'
  | _ => none

/-- One character inside quotes `quote`. Escapes by number take two, four or eight digits. -/
def escapeChar (quote c : Char) : List Char :=
  if c == quote then ['\\', c]
  else match shortEscape c with
    | some e => ['\\', e]
    | none =>
      if isPrintable c then [c]
      else if c.toNat < 0x80 then '\\' :: 'x' :: hexDigits 2 c.toNat
      else if c.toNat < 0x10000 then '\\' :: 'u' :: hexDigits 4 c.toNat
      else '\\' :: 'U' :: hexDigits 8 c.toNat

def quote (s : String) : String :=
  String.ofList ('"' :: (s.toList.flatMap (escapeChar '"') ++ ['"']))

def quoteChar (c : Char) : String :=
  String.ofList ('\'' :: (escapeChar '\'' c ++ ['\'']))

end SymbolicLtl.Text
