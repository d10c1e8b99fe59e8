import Scripting.Engine
import Scripting.Proofs.Capture.Made

/-
The functions of closures. Capture is worked out in one pass over the tokens, and still every closure
of an accepted script is closed: what its body uses is a parameter of its function, or declared in
the body where it is in scope.
-/
namespace Scripting

open Grammar

/-- For every closure of an accepted script: reading it gave a function whose parameters are the
captured variables and then the declared ones, all different, and whose body, with the closures in
it, is scoped in these parameters. Nothing is captured that the body does not use. The script keeps
the function, unless a function of the script goes by the name of a closure. -/
theorem closures_are_closed (settings : Settings) (asExpression : Bool) (tokens : List PlacedToken)
    (nextClosure : Nat) {script : Script}
    (accepted : (parse settings asExpression tokens nextClosure).1 = .ok script)
    {pos : Position} {name : Text} {captured : List Text}
    (literal : .closure pos name captured ∈ script.mentions) :
    ∃ declared f, Generates settings (tokens.takeWhile (!·.1.isEof)) (.closure pos name captured)
        declared f ∧
      f.name = name ∧ f.params = captured ++ declared ∧ f.params.Nodup ∧
      Stmt.ScopedAll f.params f.body ∧
      (∀ x ∈ captured, .name x ∈ Mention.enclose [] (Stmt.mentionsAll f.body)) ∧
      (Unmarked tokens → script.functions.find? f.key = some f) := by
  obtain ⟨t, functions, statements, bodies⟩ := parse_made accepted
  have made :
      Made settings (State.start tokens nextClosure).rest t (.closure pos name captured) := by
    rcases List.mem_append.mp literal with top | inside
    · exact statements _ top
    · obtain ⟨f, kept, within⟩ := List.mem_flatMap.mp inside
      exact bodies f kept _ within
  obtain ⟨declared, f, generates, named, closes, kept⟩ := made
  refine ⟨declared, f, generates, named, closes.params, closes.once, closes.closed, closes.needed,
    ?_⟩
  intro unmarked
  have clear : Unmarked (State.start tokens nextClosure).rest :=
    fun token there => unmarked token (List.takeWhile_subset _ there)
  rw [← functions]
  exact (kept clear).2

def nestedTokens : List PlacedToken :=
  Engine.standard.dialect.tokens [Text.lit "|a| \x7b x; let x = a; |b| x + y + b \x7d"]

def nestedScript : Script := (parse {} false nestedTokens 0).1.toOption.getD {}

theorem closures_are_closed_nested :
    .closure ⟨1, 1⟩ (closureName 1) [Text.lit "x", Text.lit "y"] ∈ nestedScript.mentions ∧
      ∃ declared f, f.params = [Text.lit "x", Text.lit "y"] ++ declared ∧ f.params.Nodup ∧
        Stmt.ScopedAll f.params f.body ∧ nestedScript.functions.find? f.key = some f := by
  have accepted : (parse {} false nestedTokens 0).1 = .ok nestedScript := by
    have ok : (parse {} false nestedTokens 0).1.toOption.isSome = true := by decide +kernel
    unfold nestedScript
    cases read : (parse {} false nestedTokens 0).1 with
    | error stop => simp [read, Except.toOption] at ok
    | ok script => rfl
  have literal : .closure ⟨1, 1⟩ (closureName 1) [Text.lit "x", Text.lit "y"] ∈
      nestedScript.mentions := by decide +kernel
  have unmarked : Unmarked nestedTokens := unmarked_of_spelling (by decide +kernel)
  obtain ⟨declared, f, -, -, params, once, closed, -, kept⟩ :=
    closures_are_closed {} false nestedTokens 0 accepted literal
  exact ⟨literal, declared, f, params, once, closed, kept unmarked⟩

end Scripting
