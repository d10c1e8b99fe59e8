import Scripting.Text

/-
Places in a script. Lines count from one and columns from zero, the column before the first
character of a line; both stop at 65535. Line zero marks the absence of a place.
-/
namespace Scripting

structure Position where
  line : Nat
  column : Nat
  deriving DecidableEq, Repr

namespace Position

def bound : Nat := 65535

def nowhere : Position := ⟨0, 0⟩

def start : Position := ⟨1, 0⟩

def of (line column : Nat) : Position := if line = 0 then nowhere else ⟨line, column⟩

def isNowhere (p : Position) : Bool := p.line == 0

def advance (p : Position) : Position :=
  if p.isNowhere || p.column ≥ bound then p else { p with column := p.column + 1 }

def back (p : Position) : Position := if p.isNowhere then p else { p with column := p.column - 1 }

def newLine (p : Position) : Position :=
  if p.isNowhere || p.line ≥ bound then p else ⟨p.line + 1, 0⟩

def advanceBy (p : Position) : Nat → Position
  | 0 => p
  | n + 1 => p.advance.advanceBy n

def text (p : Position) : Text :=
  if p.isNowhere then Text.lit "none"
  else Text.lit "line " ++ Text.ofNat p.line ++ Text.lit ", position " ++ Text.ofNat p.column

def before (p q : Position) : Bool :=
  p.line < q.line || (p.line == q.line && p.column < q.column)

end Position

end Scripting
