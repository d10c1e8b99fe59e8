import Scripting.Proofs.Contract.Stage
import Scripting.Proofs.RoundTrip.Printing

/-
Printing a value and running its text as a script. Everything comes back as it was, with one
exception: the least integer as the value of a map entry becomes a float.
-/
namespace Scripting

namespace Engine

variable {engine : Engine}

theorem compileOn_literal (unlimited : engine.Unlimited) {chars : List CodePoint}
    (small : ∀ c ∈ chars, c.toNat < 0x200000) {tokens : List Token} {b : Bool}
    (lexes : engine.dialect.Lexes false chars tokens b []) {v : Value}
    (spells : Grammar.Spells tokens v) (stage : Stage) :
    ∃ pos e, e.value? = some v ∧
      engine.compileOn false [Utf8.encodeAll chars] stage = .ok ⟨[.expr pos e], []⟩ stage := by
  obtain ⟨placed, endPos, names, read⟩ := Dialect.tokens_of_lexes unlimited.string lexes small
  have shallow : (engine.settings false).maxDepth = 0 := unlimited.exprDepth
  obtain ⟨pos, e, known, parsed⟩ :=
    Grammar.parse_literal shallow spells names endPos stage.world.nextClosure
  refine ⟨pos, e, known, ?_⟩
  have compiled : engine.compile false [Utf8.encodeAll chars] stage.world.nextClosure =
      (.ok ⟨[.expr pos e], []⟩, stage.world.nextClosure) := by
    rw [compile, read, parsed]
  have ran : Eval.compile engine false [Utf8.encodeAll chars] (stage.start {} 0) =
      .ok ⟨[.expr pos e], []⟩ (stage.start {} 0) := by
    unfold Eval.compile
    simp only [Stage.start, compiled]
  rw [compileOn, onStage_eq, ran]
  rfl

theorem runBy_literal (unlimited : engine.Unlimited) (pos : Position) {e : Expr} {v : Value}
    (known : e.value? = some v) (stage : Stage) :
    Enough fun fuel => runBy ⟨[.expr pos e], []⟩ (Eval.evaluator engine fuel) stage =
      .ok v stage := by
  refine (Eval.runTop_yields unlimited pos e known).imp fun fuel ran => ?_
  obtain ⟨operations, ran⟩ := ran (stage.start (Script.library ⟨[.expr pos e], []⟩) 0)
  exact (onStage_eq _ _ _ stage).trans (congrArg staged ran)

end Engine

/-- The text of a value, run as a script by an engine without limits, gives a value that equals it
exactly where no map entry is the least integer. -/
theorem debug_text_reads_back {engine : Engine} (unlimited : engine.Unlimited) {v : Value}
    (printable : v.Printable) (stage : Stage) :
    ∃ text script w, engine.compileOn false [text] stage = .ok script stage ∧
      Enough fun fuel => v.debugText stage.world.store fuel = .ok text ∧
        Engine.runBy script (Eval.evaluator engine fuel) stage = .ok w stage ∧
        w.equal stage.world.store fuel v = .ok (!v.altered false) := by
  obtain ⟨p, prints⟩ := printable.prints false
  have lexes : engine.dialect.Lexes false (p.chars ++ []) p.tokens true [] :=
    prints.lexes unlimited.disabled [] fun _ none => by cases none
  rw [List.append_nil] at lexes
  obtain ⟨pos, e, known, compiled⟩ :=
    Engine.compileOn_literal unlimited prints.small lexes prints.spells stage
  refine ⟨Utf8.encodeAll p.chars, ⟨[.expr pos e], []⟩, p.back, compiled, ?_⟩
  have ran := Engine.runBy_literal unlimited pos known stage
  refine (prints.debugText.and (ran.and prints.equal)).imp fun fuel all => ?_
  exact ⟨all.1 _, all.2.1, all.2.2 _ _⟩

def Engine.boundless : Engine := { Engine.standard with limits := { exprDepth := 0 } }

theorem Engine.boundless_unlimited : Engine.boundless.Unlimited where
  disabled := rfl
  exprDepth := rfl
  string := rfl
  array := rfl
  map := rfl
  operations := rfl
  progress := rfl

def Integer.least : Integer := ⟨IntType.i64.least, by decide⟩

/-- In an array the least integer comes back, also in a map. -/
theorem debug_text_reads_back_nested :
    ∃ v : Value, v = .map [(Text.lit "a", .array [.i64 .least, .char 0x1F600, .unit]),
        (Text.lit "b\"", .string (Text.lit "\\ \n"))] ∧ v.Printable ∧
      ∃ text script w, Engine.boundless.compileOn false [text] { world := {} } =
          .ok script { world := {} } ∧
        Enough fun fuel => v.debugText {} fuel = .ok text ∧
          Engine.runBy script (Eval.evaluator Engine.boundless fuel) { world := {} } =
            .ok w { world := {} } ∧
          w.equal {} fuel v = .ok true := by
  have items : (Value.array [.i64 .least, .char 0x1F600, .unit]).Printable := by
    refine .array fun v member => ?_
    simp only [List.mem_cons, List.not_mem_nil, or_false] at member
    rcases member with rfl | rfl | rfl
    · exact .integer _
    · exact .char (by decide)
    · exact .unit
  have printable : (Value.map [(Text.lit "a", .array [.i64 .least, .char 0x1F600, .unit]),
      (Text.lit "b\"", .string (Text.lit "\\ \n"))]).Printable := by
    refine .map ?_ ?_ ?_
    · exact List.pairwise_pair.mpr (by decide +kernel)
    · simp only [List.forall_mem_cons]
      exact ⟨⟨[97], Value.Prints.small_of_all rfl, by decide +kernel⟩,
        ⟨[98, 34], Value.Prints.small_of_all rfl, by decide +kernel⟩, by simp⟩
    · simp only [List.forall_mem_cons]
      exact ⟨items, .string ⟨[92, 32, 10], Value.Prints.small_of_all rfl, by decide +kernel⟩,
        by simp⟩
  exact ⟨_, rfl, printable, debug_text_reads_back Engine.boundless_unlimited printable _⟩

/-- As the value of a map entry the least integer becomes a float. -/
theorem least_entry_becomes_float :
    ((Value.map [(Text.lit "a", .i64 .least)]).debugText {} 2).toOption =
        some (Text.lit "#\x7b\"a\": -9223372036854775808\x7d") ∧
      (match Engine.boundless.compile false
          [Text.lit "#\x7b\"a\": -9223372036854775808\x7d"] 0 with
        | (.ok script, _) =>
          match Engine.boundless.run script { world := {} } with
          | .ok w _ => (w.equal {} 2 (.map [(Text.lit "a", .i64 .least)])).toOption
          | .error _ _ => none
        | (.error _, _) => none) = some false := by
  decide +kernel

end Scripting
