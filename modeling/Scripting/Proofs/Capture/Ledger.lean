import Scripting.Proofs.Capture.State
import Scripting.Proofs.Parsing.Statement

/-
Mentions as what a ledger writes down: what code says about variables is what its parts say in the order
in which they are read.
-/
namespace Scripting

theorem Expr.mentionsAll_eq (es : List Expr) : Expr.mentionsAll es = es.flatMap Expr.mentions := by
  induction es with
  | nil => rfl
  | cons e rest ih => rw [Expr.mentionsAll, ih, List.flatMap_cons]

theorem Expr.mentionsEntries_eq (es : List (Text × Expr)) :
    Expr.mentionsEntries es = es.flatMap fun e => e.2.mentions := by
  induction es with
  | nil => rfl
  | cons e rest ih => rw [Expr.mentionsEntries, ih, List.flatMap_cons, Expr.mentionsEntry]

theorem Expr.mentionsOption_eq (e : Option Expr) :
    Expr.mentionsOption e = e.toList.flatMap Expr.mentions := by
  cases e <;> simp [Expr.mentionsOption]

theorem Stmt.mentionsAll_eq (ss : List Stmt) : Stmt.mentionsAll ss = ss.flatMap Stmt.mentions := by
  induction ss with
  | nil => rfl
  | cons s rest ih => rw [Stmt.mentionsAll, ih, List.flatMap_cons]

namespace Grammar

def mentioned : Shorthand where
  Note := Mention
  code
    | .expr e => e.mentions
    | .stmt s => s.mentions
  used x := [.name x]
  declared x := [.declared x]
  scope := Mention.enclose []
  turn ms := ms

theorem mentioned_stmts (ss : List Stmt) : mentioned.stmts ss = Stmt.mentionsAll ss :=
  (Stmt.mentionsAll_eq ss).symm

theorem mentioned_exprs (es : List Expr) : mentioned.exprs es = Expr.mentionsAll es :=
  (Expr.mentionsAll_eq es).symm

theorem mentioned_entries (es : List (Text × Expr)) : mentioned.entries es = Expr.mentionsEntries es :=
  (Expr.mentionsEntries_eq es).symm

theorem mentioned_option (e : Option Expr) : mentioned.exprs e.toList = Expr.mentionsOption e :=
  (Expr.mentionsOption_eq e).symm

theorem mentioned_placed (isGlobal : Bool) : mentioned.placed isGlobal = Stmt.mentions := by
  funext s
  cases s with
  | exportNames pos names =>
    have all : names.flatMap (fun n => [Mention.name n.1]) = (Stmt.exportNames pos names).mentions := by
      rw [Stmt.mentions, List.map_eq_flatMap]
    cases isGlobal with
    | true => exact all
    | false => rfl
  | _ => rfl

theorem mentioned_expr (e : Expr) (read : ∀ pos function captured, e ≠ .closure pos function captured) :
    mentioned.made (.expr e) = e.mentions := by
  cases e with
  | var pos name path => cases path <;> rfl
  | array pos items => exact mentioned_exprs items
  | map pos entries => exact mentioned_entries entries
  | call pos name path args => exact mentioned_exprs args
  | method pos object name args =>
    rw [Shorthand.made, mentioned_exprs, Expr.mentions]
    rfl
  | block pos body =>
    rw [Shorthand.made, mentioned_stmts, Expr.mentions]
    rfl
  | branch pos condition yes no =>
    rw [Shorthand.made, mentioned_option, Expr.mentions]
    rfl
  | closure pos function captured => exact absurd rfl (read pos function captured)
  | _ => rfl

theorem mentioned_stmt (s : Stmt) (inner : ∀ pos names, s ≠ .exportNames pos names) :
    mentioned.made (.stmt s) = s.mentions := by
  cases s with
  | declare pos isConst name value =>
    rw [Shorthand.made, mentioned_option, Stmt.mentions]
    rfl
  | loop pos condition body =>
    rw [Shorthand.made, mentioned_option, Stmt.mentions]
    rfl
  | returnValue pos value => exact mentioned_option value
  | throwValue pos value => exact mentioned_option value
  | exportNames pos names => exact absurd rfl (inner pos names)
  | _ => rfl

theorem Builds.mentioned {settings : Settings} {literals : Token → Prop} {s : State} {e : Expr}
    (h : Builds settings literals s e) : mentioned.made (.expr e) = mentioned.code (.expr e) := by
  refine mentioned_expr e fun pos function captured same => ?_
  rw [same] at h
  exact h

theorem Completes.mentioned {s : State} {c : Code} (h : Completes s c) :
    mentioned.made c = mentioned.code c := by
  cases c with
  | expr e =>
    refine mentioned_expr e fun pos function captured same => ?_
    rw [same] at h
    exact h
  | stmt stmt =>
    refine mentioned_stmt stmt fun pos names same => ?_
    rw [same] at h
    exact h

theorem mentioned_number {e : Expr} (h : e.IsNumber) : mentioned.code (.expr e) = [] := by
  cases e with
  | int | float => rfl
  | _ => exact h.elim

/-- What holds of a state that has met these mentions in this order, for each way in which it may have
been begun. -/
structure Recorder where
  ι : Type
  holds : ι → State → List Mention → Prop
  skip : ∀ {i} {s t : State} {ms}, s.Skips t → holds i s ms → holds i t ms
  sink : ∀ {i} {s : State} {ms} depth, holds i s ms → holds i { s with depth := depth } ms
  use : ∀ x before, Carries holds before (use x) fun _ => before ++ [.name x]
  declare : ∀ x before, Carries holds before (declare x) fun _ => before ++ [.declared x]
  inScope : ∀ {α : Type} {p : Parse α} {inside : α → List Mention}, Carries holds [] p inside →
    ∀ before, Carries holds before (inScope p) fun a => before ++ Mention.enclose [] (inside a)
  inLoop : ∀ {α : Type} {p : Parse α} {inside : α → List Mention}, Carries holds [] p inside →
    ∀ before, Carries holds before (inLoop p) fun a => before ++ inside a

namespace Recorder

variable (R : Recorder) (settings : Settings)

def ledger : Ledger settings where
  toShorthand := mentioned
  ι := R.ι
  holds := R.holds
  literals _ := True
  known _ _ _ := trivial
  skip := R.skip
  sink := R.sink
  use := R.use
  declare := R.declare
  inScope := R.inScope
  inLoop := R.inLoop
  number number holds := by rwa [mentioned_number number, List.append_nil] at holds
  builds built holds := built.mentioned ▸ holds

abbrev Kept (rules : Rules) : Prop := (R.ledger settings).Kept rules

/-- Closures and function definitions carry the record on. -/
structure Spans : Prop where
  closure : ∀ {rules : Rules}, R.Kept settings rules →
    ∀ before, Carries R.holds before (Grammar.closure rules) fun e => before ++ e.mentions
  definition : ∀ {rules : Rules}, R.Kept settings rules →
    ∀ before access, Carries R.holds before (functionDefinition settings rules access) fun _ => before

variable {R settings} {rules : Rules} {before : List Mention}

theorem Spans.ledger (spans : R.Spans settings) : (R.ledger settings).Spans where
  completes done holds := done.mentioned ▸ holds
  closure := spans.closure
  definition := spans.definition

theorem statement_records (kept : R.Kept settings rules) :
    Carries R.holds [] rules.statement fun s => Stmt.mentionsAll s.toList :=
  Carries.congr (kept.statement []) fun _ => (mentioned_stmts _).symm

theorem block_records (kept : R.Kept settings rules) : Carries R.holds [] (block settings rules)
    fun b => Mention.enclose [] (Stmt.mentionsAll b.2) := by
  refine Carries.congr (block_carries kept) fun b => ?_
  rw [← mentioned_stmts]
  rfl

variable (R) in
theorem useAll_records (names : List Text) :
    Carries R.holds before (names.forM Grammar.use) fun _ => before ++ names.map .name := by
  refine Carries.congr (useAll_carries (L := R.ledger {}) names) fun _ => ?_
  rw [List.map_eq_flatMap]
  rfl

theorem parse_records (spans : R.Spans settings) {asExpression : Bool} {tokens : List PlacedToken}
    {first next : Nat} {r : Script} (h : parse settings asExpression tokens first = (.ok r, next)) :
    ∃ t : State, t.functions = r.functions ∧ t.nextClosure = next ∧
      ∀ i, R.holds i (State.start tokens first) [] → R.holds i t (Stmt.mentionsAll r.statements) := by
  obtain ⟨t, functions, numbered, keeps⟩ := parse_carries spans.ledger h
  refine ⟨t, functions, numbered, fun i start => ?_⟩
  have read : R.holds i t (r.statements.flatMap (mentioned.placed true)) := keeps i start
  rwa [mentioned_placed, ← Stmt.mentionsAll_eq] at read

end Recorder

end Grammar

end Scripting
