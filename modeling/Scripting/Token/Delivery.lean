import Scripting.Token.Literal

/-
String literals read into a variable of the caller. The bytes are gathered apart from it, so that a
fault leaves the variable as it was.
-/
namespace Scripting.Literal

/-- How reading into a variable has ended: the fault, if there is one, and what the variable holds. -/
structure Delivery where
  fault : Option LexError
  out : Text
  pos : Position
  rest : List CodePoint

def Sink.bytes (limit : Nat) : Sink (Text × Nat) Text where
  push found c := (found.1 ++ Utf8.encode c, found.2 + 1)
  count := (·.2)
  close found := if 0 < limit ∧ limit < found.1.length then .error (tooLong limit) else .ok found.1

/-- Read a literal after its opening quote into a variable that holds `out`. A limit of zero means no
limit. -/
def deliver (limit : Nat) (quote : CodePoint) (out : Text) (pos : Position)
    (input : List CodePoint) : Delivery :=
  let reading := readFrom (.bytes limit) limit quote .plain ([], 0) pos input
  match reading.result with
  | .ok bytes => ⟨none, bytes, reading.pos, reading.rest⟩
  | .error e => ⟨some e, out, reading.pos, reading.rest⟩

end Scripting.Literal
