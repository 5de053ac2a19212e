/-! Texts as bytes. A byte that belongs to no character is read as the replacement character. -/
namespace SymbolicLtl.Text

def bytes (text : String) : List UInt8 := text.toUTF8.toList

/-- The value of continuation bytes behind the leading bits of a character. -/
def continued (bits : Nat) : List UInt8 → Option Nat
  | [] => some bits
  | b :: rest => if b.toNat / 64 = 2 then continued (64 * bits + b.toNat % 64) rest else none

/-- The character that a leading byte and those behind it begin with, and the number of bytes that
continue it. Only the shortest form of a character counts. -/
def readChar (first : UInt8) (rest : List UInt8) : Option (Char × Nat) :=
  let build (bits extra least : Nat) : Option (Char × Nat) := do
    if rest.length < extra then none
    let n ← continued bits (rest.take extra)
    if n < least || (0xd800 ≤ n && n ≤ 0xdfff) || 0x10ffff < n then none
    else some (Char.ofNat n, extra)
  let b := first.toNat
  if b < 0x80 then some (Char.ofNat b, 0)
  else if b / 32 = 6 then build (b % 32) 1 0x80
  else if b / 16 = 14 then build (b % 16) 2 0x800
  else if b / 8 = 30 then build (b % 8) 3 0x10000
  else none

/-- The characters of bytes, the first `skip` of which were read already. -/
def charsOfBytes : (skip : Nat) → List UInt8 → List Char
  | _, [] => []
  | k + 1, _ :: rest => charsOfBytes k rest
  | 0, b :: rest =>
    match readChar b rest with
    | some (c, extra) => c :: charsOfBytes extra rest
    | none => Char.ofNat 0xfffd :: charsOfBytes 0 rest

def ofBytes (bs : List UInt8) : String := String.ofList (charsOfBytes 0 bs)

end SymbolicLtl.Text
