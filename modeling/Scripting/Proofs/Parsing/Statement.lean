import Scripting.Proofs.Parsing.Expression

/-
Reading statements and whole scripts: declarations come after their value, up to the end of the block,
and the variable of a loop stands in its body.
-/
namespace Scripting.Grammar

variable {settings : Settings} {L : Ledger settings} {before : List L.Note} {isGlobal : Bool}
  {s t : State}

open Carries

theorem placed_false (S : Shorthand) : S.placed false = fun s => S.code (.stmt s) := by
  funext s
  cases s <;> rfl

theorem flatMap_step {Note : Type} (note : Stmt → List Note) (before : List Note) (found : List Stmt)
    (stmt : Option Stmt) : before ++ found.reverse.flatMap note ++ stmt.toList.flatMap note =
      before ++ (stmt.toList ++ found).reverse.flatMap note := by
  cases stmt <;> simp

theorem loopControl_carries (spans : L.Spans) (word : Text) {stmt : Position → Stmt}
    (done : ∀ pos s, 0 < s.body.loopDepth → Completes s (.stmt (stmt pos)))
    (none : ∀ pos, L.made (.stmt (stmt pos)) = [])
    (placed : ∀ pos, L.placed isGlobal (stmt pos) = L.code (.stmt (stmt pos))) :
    L.CarriesStmt isGlobal before (loopControl word stmt) := by
  intro i s a t holds eq
  obtain ⟨pos, _, here, h⟩ := bind_cases eq
  cases here
  obtain ⟨_, _, got, h⟩ := bind_cases h
  cases got
  dsimp only at h
  split at h
  · exact ((failAt_fails _ _ _).bind _ _ _ _ h).elim
  · next inside =>
    obtain ⟨taken, u, advanced, answer⟩ := bind_cases h
    cases answer
    have skips := advance_quiet _ _ _ advanced
    change L.holds i t (before ++ L.placed isGlobal (stmt _))
    rw [placed]
    refine spans.completes (done _ _ ?_) ?_
    · rw [skips.body]
      exact Nat.pos_of_ne_zero inside
    · rw [none, List.append_nil]
      exact L.skip skips holds

variable (L before) in
theorem exportNames_carries (n : Nat) (found : List (Text × Option Text)) :
    Carries L.holds (before ++ found.flatMap fun n => L.used n.1) (exportNames n found)
      fun names => before ++ names.flatMap fun n => L.used n.1 := by
  induction n generalizing found with
  | zero => exact (Fails.stop _).carries _
  | succ n ih =>
    refine identifier?_quiet.andThen fun name => ?_
    cases name with
    | none => exact (fail_fails _ _).carries _
    | some name =>
      refine advance_quiet.andThen fun _ => (L.use name _).bind fun _ => ?_
      refine (optionalAlias_quiet _).andThen fun asName => ?_
      have met : before ++ (found ++ [(name, asName)]).flatMap (fun n => L.used n.1) =
          before ++ found.flatMap (fun n => L.used n.1) ++ L.used name := by simp
      dsimp only
      split
      · exact ((failAt_fails _ _ _).bind _).carries _
      · refine (accept_quiet _).andThen fun more => ?_
        rw [← met]
        split
        · exact ih _
        · exact give rfl

theorem exportStatement_carries : L.CarriesStmt true before exportStatement := by
  refine advance_quiet.andThen fun _ => remaining_quiet.andThen fun n => ?_
  have all := exportNames_carries L before (n + 1) []
  rw [List.flatMap_nil, List.append_nil] at all
  exact all.bind fun names => give rfl

section

variable {rules : Rules} (kept : L.Kept rules) (spans : L.Spans)
include kept

variable (before) in
theorem blockStatements_carries (n : Nat) (found : List Stmt) :
    Carries L.holds (before ++ L.stmts found.reverse) (blockStatements rules n found)
      fun ss => before ++ L.stmts ss := by
  induction n generalizing found with
  | zero => exact (Fails.stop _).carries _
  | succ n ih =>
    refine (check_quiet _).andThen fun closes => ?_
    dsimp only
    split
    · exact give rfl
    · refine atEnd_quiet.andThen fun ended => ?_
      split
      · exact ((fail_fails _ _).bind _).carries _
      · refine (kept.statement _).bind fun stmt => (statementEnd_quiet _ _).andThen fun done => ?_
        rw [Shorthand.stmts, Shorthand.stmts, flatMap_step]
        split
        · exact give rfl
        · exact ih _

theorem block_carries : Carries L.holds before (block settings rules)
    fun b => before ++ L.scope (L.stmts b.2) := by
  refine Carries.nested ?_
  refine currentPos_quiet.andThen fun pos => (expect_quiet _ _).andThen fun _ => ?_
  have body : Carries L.holds [] (do
      let body ← blockStatements rules ((← remaining) + 1) []
      expect .rightBrace (Text.lit "Expecting '\x7d' to end this statement block")
      return body) L.stmts := by
    refine remaining_quiet.andThen fun n => ?_
    refine (blockStatements_carries [] kept (n + 1) []).bind fun ss => ?_
    exact (expect_quiet _ _).andThen fun _ => give (List.nil_append _).symm
  exact (L.inScope body _).bind fun ss => give rfl

include spans

theorem blockExpr_carries : L.CarriesExpr before (blockExpr settings rules) :=
  (block_carries kept).bind fun _ => complete spans rfl rfl fun _ => trivial

theorem expression_kept : L.CarriesExpr before (expression settings rules) :=
  expression_carries (kept.covers spans)

theorem branch_carries : L.CarriesExpr before (branch settings rules) := by
  refine advance_quiet.andThen fun _ => (expression_kept kept spans).bind fun condition => ?_
  refine (blockExpr_carries kept spans).bind fun yes => ?_
  have all : ∀ (pos : Position) (no : Option Expr),
      Carries L.holds (before ++ L.expr condition ++ L.expr yes ++ L.exprs no.toList)
        (pure (Expr.branch pos condition yes no)) fun e => before ++ L.expr e := by
    intro pos no
    rw [List.append_assoc, List.append_assoc]
    exact complete spans rfl rfl fun _ => trivial
  have one : ∀ no, L.exprs (some no : Option Expr).toList = L.expr no := fun no => by simp
  refine (accept_quiet _).andThen fun more => ?_
  split
  · refine (check_quiet _).andThen fun again => ?_
    split
    · exact (kept.branch _).bind fun no => one no ▸ all _ (some no)
    · exact (blockExpr_carries kept spans).bind fun no => one no ▸ all _ (some no)
  · simpa using all _ none

theorem optionalValue_carries : Carries L.holds before (optionalValue settings rules)
    fun e => before ++ L.exprs e.toList := by
  refine (check_quiet _).andThen fun first => (check_quiet _).andThen fun second => ?_
  refine atEnd_quiet.andThen fun third => ?_
  split
  · exact give (by simp)
  · exact (expression_kept kept spans).bind fun e => give (by simp)

theorem expressionStatement_carries :
    L.CarriesStmt isGlobal before (expressionStatement settings rules) := by
  refine currentPos_quiet.andThen fun pos => (expression_kept kept spans).bind fun e => ?_
  have plain : Carries L.holds (before ++ L.expr e) (pure (Stmt.expr pos e))
      fun s => before ++ L.placed isGlobal s := complete spans rfl rfl fun _ => trivial
  refine current_quiet.andThen fun token => ?_
  split
  · dsimp only
    split
    · exact plain
    · refine currentPos_quiet.andThen fun opPos => ?_
      split
      · exact ((failAt_fails _ _ _).bind _).carries _
      · next place =>
        have assignable : e.Assignable := by
          cases e <;> simp_all [isPlace, Expr.Assignable]
        refine advance_quiet.andThen fun _ => (expression_kept kept spans).bind fun value => ?_
        rw [List.append_assoc]
        exact complete spans rfl rfl fun _ => assignable
  · exact plain

theorem declaration_carries (isConst : Bool) :
    L.CarriesStmt isGlobal before (declaration settings rules isConst) := by
  refine advance_quiet.andThen fun _ => identifier?_quiet.andThen fun name => ?_
  cases name with
  | none => exact (failUnlessLexed_fails _ _).carries _
  | some name =>
    refine advance_quiet.andThen fun _ => (accept_quiet _).andThen fun given => ?_
    have rest : ∀ (pos : Position) (value : Option Expr),
        Carries L.holds (before ++ L.exprs value.toList) (do
          declare name
          return .declare pos isConst name value : Parse Stmt)
          fun s => before ++ L.placed isGlobal s := by
      intro pos value
      refine (L.declare name _).bind fun _ => ?_
      rw [List.append_assoc]
      exact complete spans rfl rfl fun _ => trivial
    split
    · exact ((expression_kept kept spans).map (by simp)).bind (rest _)
    · exact (give (by simp)).bind (rest _)

theorem importStatement_carries : L.CarriesStmt isGlobal before (importStatement settings rules) := by
  refine advance_quiet.andThen fun _ => (expression_kept kept spans).bind fun target => ?_
  exact (optionalAlias_quiet _).andThen fun _ => complete spans rfl rfl fun _ => trivial

theorem loopBody_carries : Carries L.holds before (inLoop (blockExpr settings rules))
    fun e => before ++ L.turn (L.expr e) :=
  L.inLoop ((blockExpr_carries kept spans).congr fun _ => (List.nil_append _).symm) before

theorem whileStatement_carries : L.CarriesStmt isGlobal before (whileStatement settings rules) := by
  refine advance_quiet.andThen fun _ => (expression_kept kept spans).bind fun condition => ?_
  refine (loopBody_carries kept spans).bind fun body => ?_
  rw [List.append_assoc]
  exact complete spans rfl (by simp [Shorthand.made]) fun _ => trivial

theorem loopStatement_carries : L.CarriesStmt isGlobal before (loopStatement settings rules) := by
  refine advance_quiet.andThen fun _ => (loopBody_carries kept spans).bind fun body => ?_
  exact complete spans rfl rfl fun _ => trivial

theorem forStatement_carries : L.CarriesStmt isGlobal before (forStatement settings rules) := by
  refine advance_quiet.andThen fun _ => identifier?_quiet.andThen fun name => ?_
  cases name with
  | none => exact (fail_fails _ _).carries _
  | some name =>
    refine advance_quiet.andThen fun _ => (expect_quiet _ _).andThen fun _ => ?_
    refine (expression_kept kept spans).bind fun items => ?_
    have body : Carries L.holds [] (do
        declare name
        inLoop (blockExpr settings rules)) fun e => L.declared name ++ L.turn (L.expr e) :=
      (L.declare name _).bind fun _ => loopBody_carries kept spans
    refine (L.inScope body _).bind fun body => ?_
    rw [List.append_assoc]
    exact complete spans rfl rfl fun _ => trivial

theorem definition_carries (isGlobal : Bool) :
    Carries L.holds before (definition settings rules isGlobal) fun _ => before := by
  unfold definition
  dsimp only
  split
  · exact ((fail_fails _ _).bind _).carries _
  · refine (accept_quiet _).andThen fun hidden => ?_
    split
    · refine (check_quiet _).andThen fun follows => ?_
      split
      · exact ((fail_fails _ _).bind _).carries _
      · exact spans.definition kept _ .hidden
    · exact spans.definition kept _ .exposed

theorem statement_carries (isGlobal : Bool) :
    Carries L.holds before (statement settings rules isGlobal)
      fun s => before ++ s.toList.flatMap (L.placed isGlobal) := by
  have one : ∀ {p : Parse Stmt}, L.CarriesStmt isGlobal before p →
      Carries L.holds before (some <$> p) fun s => before ++ s.toList.flatMap (L.placed isGlobal) :=
    fun h => h.map (by simp)
  have nothing : before ++ (none : Option Stmt).toList.flatMap (L.placed isGlobal) = before := by
    simp
  have expr : ∀ {p : Parse Expr} (pos : Position), L.CarriesExpr before p →
      Carries L.holds before (do return some (.expr pos (← p)))
        fun s => before ++ s.toList.flatMap (L.placed isGlobal) :=
    fun pos h => h.bind fun e =>
      complete (c := .stmt (.expr pos e)) spans (by simp [Shorthand.placed]) rfl fun _ => trivial
  refine currentPos_quiet.andThen fun pos => current_quiet.andThen fun token => ?_
  split
  · exact give nothing
  · exact expr pos (blockExpr_carries kept spans)
  · exact expr pos (branch_carries kept spans)
  · exact one (whileStatement_carries kept spans)
  · exact one (loopStatement_carries kept spans)
  · exact one (forStatement_carries kept spans)
  · exact one (loopControl_carries spans _ (fun _ _ => id) (fun _ => rfl) fun _ => rfl)
  · exact one (loopControl_carries spans _ (fun _ _ => id) (fun _ => rfl) fun _ => rfl)
  · refine advance_quiet.andThen fun _ => (optionalValue_carries kept spans).bind fun e => ?_
    exact complete (c := .stmt (.returnValue pos e)) spans (by simp [Shorthand.placed]) rfl
      fun _ => trivial
  · refine advance_quiet.andThen fun _ => (optionalValue_carries kept spans).bind fun e => ?_
    exact complete (c := .stmt (.throwValue pos e)) spans (by simp [Shorthand.placed]) rfl
      fun _ => trivial
  · exact one (declaration_carries kept spans false)
  · exact one (declaration_carries kept spans true)
  · exact one (importStatement_carries kept spans)
  · dsimp only
    split
    · exact ((fail_fails _ _).bind _).carries _
    · next allowed =>
      have allowed : isGlobal = true := by simpa using allowed
      exact one (allowed ▸ exportStatement_carries)
  · exact (definition_carries kept spans isGlobal).bind fun _ => give nothing
  · exact (definition_carries kept spans isGlobal).bind fun _ => give nothing
  · exact one (expressionStatement_carries kept spans)

variable (before) in
theorem topStatements_carries (n : Nat) (found : List Stmt) :
    Carries L.holds (before ++ found.reverse.flatMap (L.placed true))
      (topStatements settings rules n found) fun ss => before ++ ss.flatMap (L.placed true) := by
  induction n generalizing found with
  | zero => exact (Fails.stop _).carries _
  | succ n ih =>
    refine atEnd_quiet.andThen fun ended => ?_
    dsimp only
    split
    · exact give rfl
    · refine (statement_carries kept spans true).bind fun stmt => ?_
      refine (statementEnd_quiet _ _).andThen fun done => ?_
      rw [flatMap_step]
      split
      · exact give rfl
      · exact ih _

end

section

variable (spans : L.Spans)
include spans

theorem rulesAt_kept (n : Nat) : L.Kept (rulesAt settings n) := by
  induction n with
  | zero =>
    refine ⟨⟨0, rfl⟩, ?_, ?_, ?_, ?_, ?_⟩
    all_goals exact fun before => (Fails.stop _).carries _
  | succ n ih =>
    have inner : ∀ before, Carries L.holds before (statement settings (rulesAt settings n) false)
        fun s => before ++ L.stmts s.toList := by
      intro before
      have read : Carries L.holds before (statement settings (rulesAt settings n) false)
          fun s => before ++ s.toList.flatMap (L.placed false) := statement_carries ih spans false
      rwa [placed_false] at read
    exact ⟨⟨n + 1, rfl⟩, fun _ => expression_kept ih spans, fun _ => unary_carries (ih.covers spans),
      inner, fun _ => block_carries ih, fun _ => branch_carries ih spans⟩

theorem script_carries : Carries L.holds [] (script settings)
    fun script => script.statements.flatMap (L.placed true) := by
  refine remaining_quiet.andThen fun n => ?_
  refine (topStatements_carries [] (rulesAt_kept spans _) spans (n + 1) []).bind fun ss => ?_
  exact Quiet.read.andThen fun s => give (List.nil_append _).symm

theorem singleExpression_carries : Carries L.holds [] (singleExpression settings)
    fun script => script.statements.flatMap (L.placed true) := by
  refine currentPos_quiet.andThen fun pos => remaining_quiet.andThen fun n => ?_
  refine (expression_kept (rulesAt_kept spans _) spans).bind fun e => ?_
  refine atEnd_quiet.andThen fun ended => ?_
  dsimp only
  split
  · exact (unexpected_fails.bind _).carries _
  · exact Quiet.read.andThen fun s =>
      complete (c := .stmt (.expr pos e)) spans (by simp [Shorthand.placed]) rfl fun _ => trivial

end

theorem ok_of_isSome {result : Except Stop Script} (h : result.toOption.isSome = true) :
    result = .ok (result.toOption.getD {}) := by
  cases result with
  | error stop => cases h
  | ok script => rfl

theorem script_functions {r : Script} (h : script settings s = .ok r t) :
    t.functions = r.functions := by
  obtain ⟨n, s₁, -, h₁⟩ := bind_cases h
  obtain ⟨ss, s₂, -, h₂⟩ := bind_cases h₁
  cases h₂
  rfl

theorem singleExpression_functions {r : Script} (h : singleExpression settings s = .ok r t) :
    t.functions = r.functions := by
  obtain ⟨pos, s₁, -, h₁⟩ := bind_cases h
  obtain ⟨n, s₂, -, h₂⟩ := bind_cases h₁
  obtain ⟨e, s₃, -, h₃⟩ := bind_cases h₂
  obtain ⟨ended, s₄, -, h₄⟩ := bind_cases h₃
  dsimp only at h₄
  split at h₄
  · exact (unexpected_fails.bind _ _ _ _ h₄).elim
  · cases h₄
    rfl

/-- Where a parse ends that gives a script, the ledger holds of the statements and the functions of this
script. -/
theorem parse_carries (spans : L.Spans) {asExpression : Bool} {tokens : List PlacedToken}
    {first next : Nat} {r : Script} (h : parse settings asExpression tokens first = (.ok r, next)) :
    ∃ t : State, t.functions = r.functions ∧ t.nextClosure = next ∧
      ∀ i, L.holds i (State.start tokens first) [] →
        L.holds i t (r.statements.flatMap (L.placed true)) := by
  unfold parse at h
  dsimp only at h
  split at h
  · next made t ran =>
    cases h
    cases asExpression with
    | true =>
      exact ⟨t, singleExpression_functions ran, rfl,
        fun i start => singleExpression_carries spans i _ _ t start ran⟩
    | false =>
      exact ⟨t, script_functions ran, rfl, fun i start => script_carries spans i _ _ t start ran⟩
  · cases h

end Scripting.Grammar
