import Scripting.Grammar
import Scripting.Proofs.Running

/-
What single steps of a parse leave alone. Most reading only takes tokens, and a failure leaves nothing.
-/
namespace Scripting.Grammar

structure State.Skips (s t : State) : Prop where
  rest : t.rest <:+ s.rest
  body : t.body = s.body
  outer : t.outer = s.outer
  functions : t.functions = s.functions
  nextClosure : t.nextClosure = s.nextClosure
  depth : t.depth = s.depth

def Quiet {α : Type} (p : Parse α) : Prop := ∀ s a t, p s = .ok a t → s.Skips t

def Fails {α : Type} (p : Parse α) : Prop := ∀ s a t, p s ≠ .ok a t

variable {α β : Type} {s t u : State}

namespace State.Skips

theorem refl (s : State) : s.Skips s := ⟨List.suffix_refl _, rfl, rfl, rfl, rfl, rfl⟩

theorem trans (h : s.Skips t) (h' : t.Skips u) : s.Skips u :=
  ⟨h'.rest.trans h.rest, h'.body.trans h.body, h'.outer.trans h.outer,
    h'.functions.trans h.functions, h'.nextClosure.trans h.nextClosure, h'.depth.trans h.depth⟩

end State.Skips

namespace Fails

theorem stop (e : Stop) : Fails (throw e : Parse α) := by
  intro s a t h
  cases h

theorem bind {p : Parse α} (h : Fails p) (f : α → Parse β) : Fails (p >>= f) := by
  intro s b u eq
  obtain ⟨a, t, first, -⟩ := bind_cases eq
  exact h s a t first

theorem after {p : Parse α} {f : α → Parse β} (h : ∀ a, Fails (f a)) : Fails (p >>= f) := by
  intro s b u eq
  obtain ⟨a, t, -, later⟩ := bind_cases eq
  exact h a t b u later

theorem quiet {p : Parse α} (h : Fails p) : Quiet p := fun s a t eq => (h s a t eq).elim

end Fails

theorem failAt_fails (pos : Position) (fault : ParseFault) (detail : Text) :
    Fails (failAt pos fault detail : Parse α) := .stop _

theorem unexpected_fails : Fails (unexpected : Parse α) := by
  refine .after fun s => ?_
  dsimp only
  split
  · exact failAt_fails _ _ _
  · exact failAt_fails _ _ _
  · split
    · exact failAt_fails _ _ _
    · split <;> exact failAt_fails _ _ _
  · exact failAt_fails _ _ _

theorem fail_fails (fault : ParseFault) (detail : Text) : Fails (fail fault detail : Parse α) :=
  .after fun _ => failAt_fails _ _ _

theorem failUnlessLexed_fails (fault : ParseFault) (detail : Text) :
    Fails (failUnlessLexed fault detail : Parse α) := by
  refine .after fun token => ?_
  split
  · exact unexpected_fails
  · exact fail_fails fault detail

namespace Quiet

theorem give (a : α) : Quiet (pure a) := by
  intro s b t h
  cases h
  exact .refl s

theorem bind {p : Parse α} {f : α → Parse β} (hp : Quiet p) (hf : ∀ a, Quiet (f a)) :
    Quiet (p >>= f) := by
  intro s b u eq
  obtain ⟨a, t, first, later⟩ := bind_cases eq
  exact (hp s a t first).trans (hf a t b u later)

theorem read : Quiet (get : Parse State) := by
  intro s a t h
  cases h
  exact .refl s

end Quiet

open Quiet

theorem current_quiet : Quiet current := Quiet.read.bind fun _ => give _

theorem currentPos_quiet : Quiet currentPos := Quiet.read.bind fun _ => give _

theorem second_quiet : Quiet second := Quiet.read.bind fun _ => Quiet.read.bind fun _ => give _

theorem remaining_quiet : Quiet remaining := Quiet.read.bind fun _ => give _

theorem advance_quiet : Quiet advance := by
  intro s a t h
  cases h
  exact ⟨List.tail_suffix _, rfl, rfl, rfl, rfl, rfl⟩

theorem check_quiet (symbol : Symbol) : Quiet (check symbol) := by
  refine current_quiet.bind fun token => ?_
  split <;> exact give _

theorem atEnd_quiet : Quiet atEnd := current_quiet.bind fun _ => give _

theorem accept_quiet (symbol : Symbol) : Quiet (accept symbol) := by
  refine (check_quiet symbol).bind fun found => ?_
  split
  · exact advance_quiet.bind fun _ => give _
  · exact give _

theorem expect_quiet (symbol : Symbol) (detail : Text) : Quiet (expect symbol detail) := by
  refine (accept_quiet symbol).bind fun found => ?_
  split
  · exact give _
  · exact (failUnlessLexed_fails _ _).quiet

theorem identifier?_quiet : Quiet identifier? := by
  refine current_quiet.bind fun token => ?_
  split <;> exact give _

theorem service?_quiet : Quiet service? := by
  refine current_quiet.bind fun token => ?_
  split <;> exact give _

theorem useAll_functions (names : List Text) {s t : State}
    (h : (names.forM use : Parse Unit) s = .ok () t) : t.functions = s.functions := by
  induction names generalizing s with
  | nil =>
    cases h
    rfl
  | cons name rest ih =>
    obtain ⟨_, u, first, later⟩ := bind_cases h
    have same := ih later
    cases first
    exact same

theorem mapKey_quiet : Quiet mapKey := by
  refine current_quiet.bind fun token => ?_
  split
  · exact give _
  · exact give _
  · exact (failUnlessLexed_fails _ _).quiet

theorem pathStep_quiet {n : Nat} {modules : List Text} {name : Text}
    (later : ∀ modules name, Quiet (path n modules name)) (next : Option Text) : Quiet
      (match next with
        | some next => do
          let _ ← advance
          path n (modules ++ [name]) next
        | none => fail .variableExpected
            (Text.lit "Expecting name of a variable or function after '::'")) := by
  cases next with
  | some next => exact advance_quiet.bind fun _ => later _ _
  | none => exact (fail_fails _ _).quiet

theorem path_quiet (n : Nat) (modules : List Text) (name : Text) :
    Quiet (path n modules name) := by
  induction n generalizing modules name with
  | zero => exact (Fails.stop _).quiet
  | succ n ih =>
    refine (accept_quiet _).bind fun found => ?_
    split
    · refine identifier?_quiet.bind fun word => ?_
      cases word with
      | some word => exact (give _).bind fun word => pathStep_quiet ih word
      | none => exact service?_quiet.bind fun word => pathStep_quiet ih word
    · exact give _

theorem memberName_quiet : Quiet memberName := by
  refine current_quiet.bind fun token => ?_
  split
  · exact give _
  · exact give _
  · split
    · exact give _
    · exact (fail_fails _ _).quiet
  · exact (fail_fails _ _).quiet

theorem checkIndex_quiet (e : Expr) : Quiet (checkIndex e) := by
  unfold checkIndex
  split
  · split
    · exact (failAt_fails _ _ _).quiet
    · exact give _
  · exact (failAt_fails _ _ _).quiet
  · exact (failAt_fails _ _ _).quiet
  · exact (failAt_fails _ _ _).quiet
  · exact (failAt_fails _ _ _).quiet
  · exact give _

theorem closed_quiet (closer : Option Symbol) : Quiet (closed closer) := by
  refine atEnd_quiet.bind fun ended => ?_
  split
  · exact give _
  · split
    · exact check_quiet _
    · exact give _

theorem statementEnd_quiet (stmt : Option Stmt) (closer : Option Symbol) :
    Quiet (statementEnd stmt closer) := by
  refine (closed_quiet closer).bind fun done => ?_
  split
  · exact give _
  · refine (accept_quiet _).bind fun separated => ?_
    split
    · exact closed_quiet closer
    · split
      · exact give _
      · exact (failUnlessLexed_fails _ _).quiet

theorem optionalAlias_quiet (missing : Text) : Quiet (optionalAlias missing) := by
  refine (accept_quiet _).bind fun found => ?_
  split
  · refine identifier?_quiet.bind fun name => ?_
    cases name with
    | none => exact (fail_fails _ _).quiet
    | some name => exact advance_quiet.bind fun _ => give _
  · exact give _

theorem functionParams_quiet (function : Text) (n : Nat) (params : List Text) :
    Quiet (functionParams function n params) := by
  induction n generalizing params with
  | zero => exact (Fails.stop _).quiet
  | succ n ih =>
    refine (accept_quiet _).bind fun closes => ?_
    split
    · exact give _
    · refine identifier?_quiet.bind fun param => ?_
      cases param with
      | none => exact (failUnlessLexed_fails _ _).quiet
      | some param =>
        refine advance_quiet.bind fun _ => ?_
        dsimp only
        split
        · exact ((failAt_fails _ _ _).bind _).quiet
        · refine (accept_quiet _).bind fun comma => ?_
          split
          · refine (check_quiet _).bind fun closes => ?_
            split
            · exact ((fail_fails _ _).bind _).quiet
            · exact ih _
          · exact ih _

theorem functionName_quiet : Quiet functionName := by
  refine current_quiet.bind fun token => ?_
  split
  · exact give _
  · exact give _
  · split
    · exact give _
    · exact (fail_fails _ _).quiet
  · exact (fail_fails _ _).quiet

end Scripting.Grammar
