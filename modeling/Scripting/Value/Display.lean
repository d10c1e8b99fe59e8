import Scripting.Store
import Scripting.Text.Quoted

/-
Values as text: plainly, as `print` shows them, and unmistakably, as `debug` shows them with quotes
around strings and characters.
-/
namespace Scripting.Value

open Text

def fnText (name : Text) : Text := lit "Fn(" ++ name ++ lit ")"

/-- The text of a value that is neither a container nor shared. A host value shows its type only. -/
def scalarText : Value → Text
  | bool b => lit (if b then "true" else "false")
  | int _ n => n.text
  | float f => Decimal.ofFloat f
  | float32 f => Decimal.ofFloat f.toFloat
  | char c => Utf8.encode c
  | string t => t
  | fn name _ => fnText name
  | host v => v.type.text
  | _ => []

def debugText (s : Store) : Nat → Value → Except Halt Text
  | 0, _ => .error .outOfFuel
  | n + 1, v =>
    match v with
    | unit => .ok (lit "()")
    | char c => .ok (Quoted.write Quoted.singleQuote (Utf8.encode c))
    | string t => .ok (Quoted.write Quoted.doubleQuote t)
    | array items => do
      let texts ← items.mapM (debugText s n)
      return lit "[" ++ join (lit ", ") texts ++ lit "]"
    | map entries => do
      let texts ← entries.mapM fun (key, v) => do
        return Quoted.write Quoted.doubleQuote key ++ lit ": " ++ (← debugText s n v)
      return lit "#\x7b" ++ join (lit ", ") texts ++ lit "\x7d"
    | shared c => do debugText s n (← s.read c [] .nowhere)
    | v => .ok v.scalarText

/-- The plain text. Unit has none, and containers are shown unmistakably. -/
def displayText (s : Store) : Nat → Value → Except Halt Text
  | 0, _ => .error .outOfFuel
  | n + 1, v =>
    match v with
    | unit => .ok []
    | array _ | map _ => debugText s (n + 1) v
    | shared c => do displayText s n (← s.read c [] .nowhere)
    | v => .ok v.scalarText

end Scripting.Value
