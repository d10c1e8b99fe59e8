import Scripting.Text

/-
Quoted text: a value's text between two quote characters, with a backslash before every character
that would otherwise end the literal or break the line.
-/
namespace Scripting.Quoted

def escape (quote : UInt8) (b : UInt8) : Text :=
  if b = 92 then [92, 92]
  else if b = 10 then [92, 110]
  else if b = 9 then [92, 116]
  else if b = 13 then [92, 114]
  else if b = quote then [92, b]
  else [b]

def write (quote : UInt8) (t : Text) : Text := quote :: t.flatMap (escape quote) ++ [quote]

def doubleQuote : UInt8 := 34

def singleQuote : UInt8 := 39

end Scripting.Quoted
