import Scripting.Dict
import Scripting.Error
import Scripting.Number.Decimal
import Scripting.Number.Fixed
import Scripting.Text.Utf8
import Scripting.Token.Symbol

/-
Tokens, the words of a script. A fault in the characters is a token of its own, so that reading
never stops before the end of the script.
-/
namespace Scripting

inductive Token where
  | integer (n : Integer)
  | float (f : Float)
  | char (c : CodePoint)
  | string (t : Text)
  | identifier (name : Text)
  | symbol (s : Symbol)
  | fault (e : LexError)
  | comment (t : Text)
  | reserved (t : Text)
  | custom (t : Text)
  | eof

abbrev OperatorTable := Dict Text Nat

namespace Token

/-- The token as a message or an operator call names it. A string is only called a string. -/
def text : Token → Text
  | integer n => n.text
  | float f => Decimal.ofFloat f
  | char c => Utf8.encode c
  | string _ => Text.lit "string"
  | identifier t | reserved t | custom t | comment t => t
  | fault e => e.message
  | symbol s => s.text
  | eof => Text.lit "\x7bEOF\x7d"

def isEof : Token → Bool
  | eof => true
  | _ => false

def isKeyword : Token → Bool
  | symbol s => s.isKeyword
  | _ => false

def isOperator : Token → Bool
  | symbol s => s.isOperator
  | _ => false

def expectsOperand : Token → Bool
  | symbol s => s.expectsOperand
  | fault _ => true
  | _ => false

def bindsRight : Token → Bool
  | symbol s => s.bindsRight
  | _ => false

/-- How tightly the token binds as a binary operator; zero if it is none. -/
def precedence (operators : OperatorTable) : Token → Nat
  | symbol s => s.precedence
  | custom t => (operators.find? t).getD 0
  | _ => 0

def same : Token → Token → Bool
  | integer a, integer b => a = b
  | float a, float b => a == b
  | char a, char b => a == b
  | string a, string b => a == b
  | identifier a, identifier b => a == b
  | symbol a, symbol b => a = b
  | fault a, fault b => a = b
  | comment a, comment b => a == b
  | reserved a, reserved b => a == b
  | custom a, custom b => a == b
  | eof, eof => true
  | _, _ => false

/-- The token that a spelling stands for. Reserved words and service words are reserved tokens. -/
def ofText? (t : Text) : Option Token :=
  match Symbol.ofText? t with
  | some s => some (symbol s)
  | none => if Reserved.isReserved t then some (reserved t) else none

end Token

abbrev PlacedToken := Token × Position

end Scripting
