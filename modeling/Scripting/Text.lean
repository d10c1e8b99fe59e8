/-
Text as scripts and hosts see it: a list of bytes. By convention the bytes are UTF-8, but any bytes
may come in from a host and have to survive, so nothing here assumes that they are well formed.
-/
namespace Scripting

abbrev Text := List UInt8

namespace Text

def lit (s : String) : Text := s.toUTF8.data.toList

def ofNat (n : Nat) : Text :=
  if n < 10 then [UInt8.ofNat (48 + n)] else ofNat (n / 10) ++ [UInt8.ofNat (48 + n % 10)]

def ofInt (n : Int) : Text :=
  if n < 0 then lit "-" ++ ofNat n.natAbs else ofNat n.natAbs

/-- Does the second text contain the first? The empty text is contained in every text. -/
def occursIn (needle : Text) : Text → Bool
  | [] => needle.isEmpty
  | b :: rest => needle.isPrefixOf (b :: rest) || occursIn needle rest

def upperByte (b : UInt8) : UInt8 := if 97 ≤ b ∧ b ≤ 122 then b - 32 else b

def lowerByte (b : UInt8) : UInt8 := if 65 ≤ b ∧ b ≤ 90 then b + 32 else b

def toUpper (t : Text) : Text := t.map upperByte

def toLower (t : Text) : Text := t.map lowerByte

/-- The texts one after the other with a separator between neighbours. -/
def join (separator : Text) : List Text → Text
  | [] => []
  | [t] => t
  | t :: rest => t ++ separator ++ join separator rest

def inTicks (t : Text) : Text := lit "'" ++ t ++ lit "'"

def isLower (b : UInt8) : Bool := 97 ≤ b && b ≤ 122

def isUpper (b : UInt8) : Bool := 65 ≤ b && b ≤ 90

def isDigit (b : UInt8) : Bool := 48 ≤ b && b ≤ 57

/-- The rest of an identifier after `started` says whether a letter has been seen: underscores may
stand anywhere, digits only after a letter. -/
def identifierFrom (started : Bool) : Text → Bool
  | [] => started
  | b :: rest =>
    if b = 95 then identifierFrom started rest
    else if isLower b || isUpper b then identifierFrom true rest
    else started && isDigit b && identifierFrom started rest

/-- Letters, digits and underscores, with a letter before the first digit and at least one letter. -/
def isIdentifier (t : Text) : Bool := identifierFrom false t

end Text

end Scripting
