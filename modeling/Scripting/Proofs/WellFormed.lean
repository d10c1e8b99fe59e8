import Scripting.Engine
import Scripting.Proofs.Parsing.Checks

/-
What evaluation may rely on. An accepted script is well-formed at every depth of its statements and of
the bodies of its functions and closures, although no pass over the finished script makes sure of it.
-/
namespace Scripting

open Grammar

def Code.IsExport : Code → Prop
  | .stmt (.exportNames ..) => True
  | _ => False

theorem Grammar.innerRule.no_export {literals : Token → Prop} {looping : Bool} {c : Code}
    (h : innerRule literals looping c) : ¬ c.IsExport := by
  cases c with
  | expr e => exact id
  | stmt stmt =>
    cases stmt with
    | exportNames => exact h.elim
    | _ => exact id

/-- Exports are statements of the script itself. Everything else in an accepted script is well-formed
throughout and exports nothing: only functions and closures mention `this`; what is assigned to is a
plain variable, `this`, an index or a property; the keys of a map are all different; no index is written
as a negative integer, a float, a character, a truth value or the unit; and a closure names a function
of the script, with as many parameters as it captures and declares. The parameters of a function are
all different. -/
theorem accepted_scripts_are_well_formed (settings : Settings) (asExpression : Bool)
    (tokens : List PlacedToken) (nextClosure : Nat) {script : Script}
    (accepted : (parse settings asExpression tokens nextClosure).1 = .ok script) :
    (∀ stmt ∈ script.statements, (Code.stmt stmt).IsExport ∨
      Obeys (fun _ c => ¬ c.IsExport ∧
        WellFormed settings (tokens.takeWhile (!·.1.isEof)) script.functions false c)
        false (.stmt stmt)) ∧
    ∀ entry ∈ script.functions, entry.2.params.Nodup ∧
      entry.2.Obeys fun _ c => ¬ c.IsExport ∧
        WellFormed settings (tokens.takeWhile (!·.1.isEof)) script.functions true c := by
  obtain ⟨statements, functions⟩ := parse_checks accepted
  refine ⟨fun stmt there => ?_, fun entry there => ⟨(functions entry there).once, ?_⟩⟩
  · rcases statements stmt there with ⟨pos, names, rfl⟩ | obeys
    · exact .inl trivial
    · exact .inr (obeys.mono fun _ _ here => ⟨here.1.no_export, here.2⟩)
  · intro stmt inside
    exact ((functions entry there).body stmt inside).mono fun _ _ here => ⟨here.1.no_export, here.2⟩

/-- A function with `this` in it, a closure in a closure, an assignment to what an index of a property
gives, a map, and an export. -/
def variedTokens : List PlacedToken :=
  Engine.standard.dialect.tokens [Text.lit ("fn keep(key, item) \x7b this.found[key] = item; \x7d " ++
    "let m = #\x7ba: [1, 2][0], b: |x| |y| x + y + m\x7d; m.a = 3; export m as n;")]

def variedScript : Script := (parse {} false variedTokens 0).1.toOption.getD {}

theorem accepted_scripts_are_well_formed_varied :
    (parse {} false variedTokens 0).1 = .ok variedScript ∧
      variedScript.functions.length = 3 ∧
      (∀ stmt ∈ variedScript.statements, (Code.stmt stmt).IsExport ∨
        Obeys (fun _ c => ¬ c.IsExport ∧
          WellFormed {} (variedTokens.takeWhile (!·.1.isEof)) variedScript.functions false c)
          false (.stmt stmt)) ∧
      ∀ entry ∈ variedScript.functions, entry.2.params.Nodup ∧
        entry.2.Obeys fun _ c => ¬ c.IsExport ∧
          WellFormed {} (variedTokens.takeWhile (!·.1.isEof)) variedScript.functions true c := by
  have accepted : (parse {} false variedTokens 0).1 = .ok variedScript :=
    ok_of_isSome (by decide +kernel)
  have kept : variedScript.functions.length = 3 := by decide +kernel
  exact ⟨accepted, kept, accepted_scripts_are_well_formed {} false variedTokens 0 accepted⟩

end Scripting
