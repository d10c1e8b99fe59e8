import Scripting.Proofs.Parsing.Nesting
import Scripting.Proofs.Parsing.State
import Scripting.Proofs.Precedence

/-
How deep the rules of the grammar nest what they read, by the depth at which they read it.
-/
namespace Scripting.Grammar

variable {most depth : Nat}

open Digs

/-- How deep an operand can nest that is read at this depth: each level that is left makes room for a
chain of operators that bind more and more tightly, and for what else can stand around an operand. -/
def reach (settings : Settings) (depth : Nat) : Nat := 257 * (settings.maxDepth - depth)

theorem reach_deeper {settings : Settings} (room : depth < settings.maxDepth) :
    reach settings depth = reach settings (depth + 1) + 257 := by
  unfold reach
  have more : settings.maxDepth - depth = settings.maxDepth - (depth + 1) + 1 := by omega
  rw [more, Nat.mul_add]

abbrev DigsExpr (most depth within : Nat) (p : Parse Expr) : Prop :=
  Digs most depth (fun e => e.nesting 0 ≤ within) p

/-- The parts of the grammar that contain each other. An expression adds the levels of precedence to
its operands, and a statement its own. -/
structure Rules.Bounded (settings : Settings) (most : Nat) (rules : Rules) : Prop where
  expression : ∀ depth, DigsExpr most depth (reach settings depth + 255) rules.expression
  unary : ∀ depth, DigsExpr most depth (reach settings depth) rules.unary
  statement : ∀ depth, Digs most depth (fun s => ∀ x ∈ s, Stmt.nesting 0 x ≤ reach settings depth + 257)
    rules.statement
  block : ∀ depth, Digs most depth (fun b => ∀ s ∈ b.2, Stmt.nesting 0 s ≤ reach settings depth)
    rules.block
  branch : ∀ depth, DigsExpr most depth (reach settings depth + 256) rules.branch

section

variable {settings : Settings} {rules : Rules} (bounded : rules.Bounded settings most)
include bounded

theorem items_digs (closer : Symbol) (unclosed unseparated : Text) (n : Nat) {found : List Expr}
    (hfound : ∀ e ∈ found, e.nesting 0 ≤ reach settings depth + 255) :
    Digs most depth (fun es => ∀ e ∈ es, e.nesting 0 ≤ reach settings depth + 255)
      (items rules closer unclosed unseparated n found) := by
  induction n generalizing found with
  | zero => exact stop _
  | succ n ih =>
    refine (accept_quiet closer).andDigs fun done => ?_
    dsimp only
    split
    · exact give (by simpa using hfound)
    · refine atEnd_quiet.andDigs fun ended => ?_
      split
      · exact ((fail_fails _ _).bind _).digs
      · refine (bounded.expression depth).bind fun e he => ?_
        have more := @ih (e :: found) (List.forall_mem_cons.mpr ⟨he, hfound⟩)
        refine (accept_quiet _).andDigs fun comma => ?_
        split
        · refine (check_quiet closer).andDigs fun closes => ?_
          split
          · exact ((failUnlessLexed_fails _ _).bind _).digs
          · exact more
        · exact more

theorem arguments_digs (name : Text) :
    Digs most depth (fun es => ∀ e ∈ es, e.nesting 0 ≤ reach settings depth + 255)
      (arguments rules name) := by
  refine advance_quiet.andDigs fun _ => remaining_quiet.andDigs fun n => ?_
  exact items_digs bounded _ _ _ _ fun _ none => by cases none

theorem mapEntries_digs (n : Nat) {found : List (Text × Expr)}
    (hfound : ∀ e ∈ found, e.2.nesting 0 ≤ reach settings depth + 255) :
    Digs most depth (fun es => ∀ e ∈ es, e.2.nesting 0 ≤ reach settings depth + 255)
      (mapEntries rules n found) := by
  induction n generalizing found with
  | zero => exact stop _
  | succ n ih =>
    refine (accept_quiet _).andDigs fun done => ?_
    dsimp only
    split
    · exact give (by simpa using hfound)
    · refine atEnd_quiet.andDigs fun ended => ?_
      split
      · exact ((fail_fails _ _).bind _).digs
      · refine mapKey_quiet.andDigs fun key => ?_
        refine advance_quiet.andDigs fun _ => ?_
        split
        · exact ((failAt_fails _ _ _).bind _).digs
        · refine (expect_quiet _ _).andDigs fun _ => ?_
          refine (bounded.expression depth).bind fun e he => ?_
          have more := @ih ((key, e) :: found) (List.forall_mem_cons.mpr ⟨he, hfound⟩)
          refine (accept_quiet _).andDigs fun comma => ?_
          split
          · refine (check_quiet _).andDigs fun closes => ?_
            split
            · exact ((failUnlessLexed_fails _ _).bind _).digs
            · exact more
          · exact more

theorem called_digs (pos : Position) (name : Text) (modules : List Text) :
    DigsExpr most depth (reach settings depth + 256) (do
      return .call pos name modules (← arguments rules name) false) := by
  refine (arguments_digs bounded name).bind fun args hargs => give ?_
  rw [Expr.nesting, if_neg Bool.false_ne_true]
  exact Expr.nestingAll_le hargs

theorem named_digs (pos : Position) (first : Text) :
    DigsExpr most depth (reach settings depth + 256) (named rules pos first) := by
  refine remaining_quiet.andDigs fun n => (path_quiet _ _ _).andDigs fun found => ?_
  obtain ⟨modules, name⟩ := found
  have leaf : (Expr.var pos name modules).nesting 0 ≤ reach settings depth + 256 := by
    simp [Expr.nesting]
  refine (check_quiet _).andDigs fun called => ?_
  split
  · exact called_digs bounded pos name modules
  · dsimp only
    split
    · exact (use_digs name).bind fun _ _ => give leaf
    · exact give leaf

/-- The body of a closure is kept with the functions, and the closure itself has no parts. -/
theorem closureBody_digs (all : reach settings depth + 257 ≤ most) (pos : Position)
    (params : List Text) : DigsExpr most depth 0 (closureBody rules pos params) := by
  refine currentPos_quiet.andDigs fun bodyPos => ?_
  refine (inBody_digs (bounded.statement depth) _).bind fun r hbody => ?_
  obtain ⟨body, inner⟩ := r
  refine freshClosure_digs.bind fun id _ => ?_
  refine (define_digs fun s hs => ?_).bind fun _ _ => ?_
  · exact Nat.le_trans (hbody s (by simpa using hs)) all
  · exact (useAll_digs _).bind fun _ _ => give (by simp [Expr.nesting])

theorem closure_digs (all : reach settings depth + 257 ≤ most) :
    DigsExpr most depth 0 (closure rules) := by
  refine advance_quiet.andDigs fun opened => ?_
  obtain ⟨token, pos⟩ := opened
  dsimp only
  split
  · exact (give (Q := fun _ => True) trivial).bind fun params _ =>
      closureBody_digs bounded all pos params
  · refine remaining_quiet.andDigs fun n => ?_
    exact (closureParams_quiet _ _).andDigs fun params => closureBody_digs bounded all pos params

theorem primary_digs (all : reach settings depth + 257 ≤ most) :
    DigsExpr most depth (reach settings depth + 256) (primary settings rules) := by
  refine currentPos_quiet.andDigs fun pos => ?_
  refine current_quiet.andDigs fun token => ?_
  have literal : ∀ e : Expr, e.nesting 0 = 0 →
      DigsExpr most depth (reach settings depth + 256) (do let _ ← advance; return e) :=
    fun e leaf => advance_quiet.andDigs fun _ => give (by rw [leaf]; exact Nat.zero_le _)
  have closed : DigsExpr most depth (reach settings depth + 256) (closure rules) :=
    (closure_digs bounded all).imp fun e he => Nat.le_trans he (Nat.zero_le _)
  have word : ∀ name, DigsExpr most depth (reach settings depth + 256) (wordCall rules pos name) :=
    fun name => advance_quiet.andDigs fun _ => called_digs bounded pos name []
  split
  · exact literal _ (by simp [Expr.nesting])
  · exact literal _ (by simp [Expr.nesting])
  · exact literal _ (by simp [Expr.nesting])
  · exact literal _ (by simp [Expr.nesting])
  · exact literal _ (by simp [Expr.nesting])
  · exact literal _ (by simp [Expr.nesting])
  · refine advance_quiet.andDigs fun _ => (accept_quiet _).andDigs fun closed => ?_
    split
    · exact give (by simp [Expr.nesting])
    · refine (bounded.expression depth).bind fun e he => ?_
      exact (expect_quiet _ _).andDigs fun _ => give (Nat.le_succ_of_le he)
  · refine advance_quiet.andDigs fun _ => remaining_quiet.andDigs fun n => ?_
    refine (items_digs bounded _ _ _ _ fun _ none => by cases none).bind fun es hes => give ?_
    rw [Expr.nesting]
    exact Expr.nestingAll_le hes
  · refine advance_quiet.andDigs fun _ => remaining_quiet.andDigs fun n => ?_
    refine (mapEntries_digs bounded _ fun _ none => by cases none).bind fun es hes => give ?_
    rw [Expr.nesting]
    exact Expr.nestingEntries_le hes
  · dsimp only
    split
    · exact (unexpected_fails.bind _).digs
    · refine (bounded.block depth).bind fun b hb => give ?_
      rw [Expr.nesting]
      exact Nat.le_trans (Stmt.nestingAll_le hb) (by omega)
  · dsimp only
    split
    · exact (unexpected_fails.bind _).digs
    · exact bounded.branch depth
  · dsimp only
    split
    · exact (unexpected_fails.bind _).digs
    · exact closed
  · dsimp only
    split
    · exact (unexpected_fails.bind _).digs
    · exact closed
  · exact advance_quiet.andDigs fun _ => named_digs bounded pos _
  · refine second_quiet.andDigs fun next => ?_
    split
    · exact word _
    · exact unexpected_fails.digs
  · split
    · refine Quiet.read.andDigs fun s => ?_
      split
      · exact (unexpected_fails.bind _).digs
      · exact literal _ (by simp [Expr.nesting])
    · refine second_quiet.andDigs fun next => ?_
      split
      · exact word _
      · exact unexpected_fails.digs
  · exact unexpected_fails.digs

/-- Suffixes nest what they stand behind, which is a chain, and their own parts. -/
theorem suffixes_digs (n : Nat) {e : Expr} (he : e.nesting 0 ≤ reach settings depth + 256) :
    DigsExpr most depth (reach settings depth + 256) (suffixes rules n e) := by
  induction n generalizing e with
  | zero => exact stop _
  | succ n ih =>
    refine currentPos_quiet.andDigs fun pos => ?_
    refine (accept_quiet _).andDigs fun indexed => ?_
    split
    · refine (bounded.expression depth).bind fun index hindex => ?_
      refine (checkIndex_quiet index).andDigs fun _ => ?_
      refine (expect_quiet _ _).andDigs fun _ => ih ?_
      rw [Expr.nesting]
      exact Nat.max_le.mpr ⟨he, Nat.succ_le_succ hindex⟩
    · refine (accept_quiet _).andDigs fun member => ?_
      split
      · refine memberName_quiet.andDigs fun name => ?_
        refine advance_quiet.andDigs fun _ => ?_
        refine (check_quiet _).andDigs fun called => ?_
        split
        · refine (arguments_digs bounded name).bind fun args hargs => ih ?_
          rw [Expr.nesting]
          exact Nat.max_le.mpr ⟨he, Expr.nestingAll_le hargs⟩
        · refine ih ?_
          rw [Expr.nesting]
          exact he
      · exact give he

theorem operand_digs (all : reach settings depth + 257 ≤ most) :
    DigsExpr most depth (reach settings depth + 256) (operand settings rules) := by
  refine (primary_digs bounded all).bind fun e he => ?_
  exact remaining_quiet.andDigs fun n => suffixes_digs bounded _ he

omit bounded in
theorem nesting_operatorCall (pos : Position) (name : Text) (e : Expr) :
    (operatorCall pos name [e]).nesting 0 = e.nesting 0 + 1 := by
  simp [operatorCall, Expr.nesting, Expr.nestingOperands, Expr.nestingAll]

omit bounded in
theorem nesting_negated (pos : Position) (e : Expr) : (negated pos e).nesting 0 ≤ e.nesting 0 + 1 := by
  unfold negated
  split
  · split
    · simp [Expr.nesting]
    · exact Nat.le_of_eq (nesting_operatorCall pos _ _)
  · simp [Expr.nesting]
  · exact Nat.le_of_eq (nesting_operatorCall pos _ e)

omit bounded in
theorem nesting_affirmed (pos : Position) (e : Expr) :
    (affirmed pos e).nesting 0 ≤ e.nesting 0 + 1 := by
  unfold affirmed
  split
  · exact Nat.le_succ _
  · exact Nat.le_succ _
  · exact Nat.le_of_eq (nesting_operatorCall pos _ e)

omit bounded in
theorem nesting_combine (op : Token) (pos : Position) (left right : Expr) :
    (combine op pos left right).nesting 0 = max (left.nesting 0) (right.nesting 0 + 1) := by
  unfold combine
  split <;> simp [operatorCall, Expr.nesting, Expr.nestingOperands]

end

section

variable {settings : Settings} {rules : Rules} (bounded : rules.Bounded settings most)
include bounded

theorem unary_digs (limited : 0 < settings.maxDepth) (all : reach settings 0 + 257 ≤ most) :
    DigsExpr most depth (reach settings depth) (unary settings rules) := by
  refine nested_digs limited fun room => ?_
  rw [reach_deeper room]
  have signed : DigsExpr most (depth + 1) (reach settings (depth + 1)) rules.unary :=
    bounded.unary (depth + 1)
  refine currentPos_quiet.andDigs fun pos => ?_
  refine current_quiet.andDigs fun token => ?_
  split
  · refine advance_quiet.andDigs fun _ => signed.bind fun e he => give ?_
    exact Nat.le_trans (nesting_negated pos e) (by omega)
  · refine advance_quiet.andDigs fun _ => signed.bind fun e he => give ?_
    exact Nat.le_trans (nesting_negated pos e) (by omega)
  · refine advance_quiet.andDigs fun _ => signed.bind fun e he => give ?_
    exact Nat.le_trans (nesting_affirmed pos e) (by omega)
  · refine advance_quiet.andDigs fun _ => signed.bind fun e he => give ?_
    exact Nat.le_trans (nesting_affirmed pos e) (by omega)
  · refine advance_quiet.andDigs fun _ => signed.bind fun e he => give ?_
    rw [nesting_operatorCall]
    omega
  · have less : reach settings (depth + 1) ≤ reach settings 0 :=
      Nat.mul_le_mul_left _ (Nat.sub_le_sub_left (Nat.zero_le _) _)
    exact (operand_digs bounded (by omega)).imp fun e he => Nat.le_succ_of_le he

omit bounded in
theorem precedence_le (small : ∀ e ∈ settings.operators, e.2 ≤ 255) (token : Token) :
    token.precedence settings.operators ≤ 255 := by
  cases token with
  | symbol s =>
    change s.precedence ≤ 255
    cases s <;> decide
  | custom t =>
    change (settings.operators.find? t).getD 0 ≤ 255
    cases found : settings.operators.find? t with
    | none => exact Nat.zero_le _
    | some p => exact small (t, p) (Dict.mem_of_find? found)
  | _ => exact Nat.zero_le _

/-- To the right an operator nests only what binds more tightly, so that the levels of precedence bound
how deep a sequence of operators nests there. -/
theorem binary_digs (small : ∀ e ∈ settings.operators, e.2 ≤ 255) (n least : Nat) {left : Expr}
    (within : least ≤ 256) (hleft : left.nesting 0 ≤ reach settings depth + (256 - least)) :
    DigsExpr most depth (reach settings depth + (256 - least)) (binary settings rules n least left) := by
  induction n generalizing least left with
  | zero => exact stop _
  | succ n ih =>
    intro s a t shallow level eq
    rw [binary] at eq
    obtain ⟨_, _, got, eq⟩ := bind_cases eq
    cases got
    dsimp only at eq
    split at eq
    · cases eq
      exact ⟨shallow, level, hleft⟩
    · next goes =>
      obtain ⟨_, _, took, eq⟩ := bind_cases eq
      cases took
      have op : IsBinary settings s.current.1 :=
        ⟨fun none => goes (.inl none), by simpa using fun point => goes (.inr (.inr point))⟩
      have least_le : least ≤ s.current.1.precedence settings.operators := by
        refine Nat.le_of_not_lt fun less => goes (.inr (.inl less))
      have most_le := precedence_le small s.current.1
      generalize s.current.1.precedence settings.operators = precedence at eq least_le most_le
      have goOn : ∀ right : Expr, right.nesting 0 ≤ reach settings depth + (256 - (precedence + 1)) →
          DigsExpr most depth (reach settings depth + (256 - least))
            (binary settings rules n least (combine s.current.1 s.current.2 left right)) := by
        intro right hright
        refine ih least within ?_
        rw [nesting_combine]
        omega
      refine ((bounded.unary depth).bind
        (R := fun e => e.nesting 0 ≤ reach settings depth + (256 - least)) fun right hright => ?_)
        { s with rest := s.rest.tail } a t shallow level eq
      refine current_quiet.andDigs fun next => ?_
      split
      · exact (give (by omega)).bind goOn
      · split
        · exact (ih _ (by omega) (by omega)).bind goOn
        · split
          · next same =>
            rw [op.bindsLeft] at same
            cases same.2
          · exact (give (by omega)).bind goOn

theorem expression_digs (limited : 0 < settings.maxDepth) (all : reach settings 0 + 257 ≤ most)
    (small : ∀ e ∈ settings.operators, e.2 ≤ 255) :
    DigsExpr most depth (reach settings depth + 255) (expression settings rules) := by
  refine (unary_digs bounded limited all).bind fun left hleft => ?_
  exact remaining_quiet.andDigs fun n =>
    binary_digs bounded small _ 1 (by omega) (Nat.le_trans hleft (Nat.le_add_right _ _))

end

/-! Statements. -/

section

variable {settings : Settings} {rules : Rules} (bounded : rules.Bounded settings most)
variable (limited : 0 < settings.maxDepth) (all : reach settings 0 + 257 ≤ most)
variable (small : ∀ e ∈ settings.operators, e.2 ≤ 255)
include bounded

theorem blockStatements_digs (n : Nat) {found : List Stmt}
    (hfound : ∀ s ∈ found, s.nesting 0 ≤ reach settings depth + 257) :
    Digs most depth (fun ss => ∀ s ∈ ss, Stmt.nesting 0 s ≤ reach settings depth + 257)
      (blockStatements rules n found) := by
  induction n generalizing found with
  | zero => exact stop _
  | succ n ih =>
    refine (check_quiet _).andDigs fun closes => ?_
    dsimp only
    split
    · exact give (by simpa using hfound)
    · refine atEnd_quiet.andDigs fun ended => ?_
      split
      · exact ((fail_fails _ _).bind _).digs
      · refine (bounded.statement depth).bind fun stmt hstmt => ?_
        refine (statementEnd_quiet _ _).andDigs fun done => ?_
        have both : ∀ s ∈ stmt.toList ++ found, s.nesting 0 ≤ reach settings depth + 257 :=
          List.forall_mem_append.mpr ⟨by simpa using hstmt, hfound⟩
        split
        · exact give (by simpa only [List.mem_reverse] using both)
        · exact ih both

include limited

theorem block_digs :
    Digs most depth (fun b => ∀ s ∈ b.2, Stmt.nesting 0 s ≤ reach settings depth)
      (block settings rules) := by
  refine nested_digs limited fun room => ?_
  rw [reach_deeper room]
  refine currentPos_quiet.andDigs fun pos => (expect_quiet _ _).andDigs fun _ => ?_
  have body : Digs most (depth + 1)
      (fun ss => ∀ s ∈ ss, Stmt.nesting 0 s ≤ reach settings (depth + 1) + 257) (inScope do
      let body ← blockStatements rules ((← remaining) + 1) []
      expect .rightBrace (Text.lit "Expecting '\x7d' to end this statement block")
      return body) := by
    refine inScope_digs (remaining_quiet.andDigs fun n => ?_)
    refine (blockStatements_digs bounded _ fun _ none => by cases none).bind fun ss hss => ?_
    exact (expect_quiet _ _).andDigs fun _ => give hss
  exact body.bind fun ss hss => give hss

theorem blockExpr_digs : DigsExpr most depth (reach settings depth + 1) (blockExpr settings rules) := by
  refine (block_digs bounded limited).bind fun b hb => give ?_
  rw [Expr.nesting]
  exact Stmt.nestingAll_le hb

include all small

theorem branch_digs : DigsExpr most depth (reach settings depth + 256) (branch settings rules) := by
  refine advance_quiet.andDigs fun _ => ?_
  refine (expression_digs bounded limited all small).bind fun condition hcondition => ?_
  refine (blockExpr_digs bounded limited).bind fun yes hyes => ?_
  have otherwise : ∀ (pos : Position) (no : Expr), no.nesting 0 ≤ reach settings depth + 256 →
      (Expr.branch pos condition yes (some no)).nesting 0 ≤ reach settings depth + 256 := by
    intro pos no hno
    rw [Expr.nesting]
    omega
  refine (accept_quiet _).andDigs fun more => ?_
  split
  · refine (check_quiet _).andDigs fun again => ?_
    split
    · exact (bounded.branch depth).bind fun no hno => give (otherwise _ no hno)
    · exact (blockExpr_digs bounded limited).bind fun no hno => give (otherwise _ no (by omega))
  · refine give ?_
    rw [Expr.nesting]
    omega

theorem optionalValue_digs :
    Digs most depth (fun e => ∀ x ∈ e, Expr.nesting 0 x ≤ reach settings depth + 255)
      (optionalValue settings rules) := by
  have read : ∀ found : Bool, Digs most depth
      (fun e => ∀ x ∈ e, Expr.nesting 0 x ≤ reach settings depth + 255)
      (if found = true then return none else return some (← expression settings rules)) := by
    intro found
    split
    · exact give fun _ none => by cases none
    · exact (expression_digs bounded limited all small).bind fun e he => give (by simpa using he)
  unfold optionalValue
  refine (check_quiet _).andDigs fun first => (check_quiet _).andDigs fun second => ?_
  exact atEnd_quiet.andDigs fun third => read _

abbrev DigsStmt (most depth within : Nat) (p : Parse Stmt) : Prop :=
  Digs most depth (fun s => s.nesting 0 ≤ within) p

theorem expressionStatement_digs :
    DigsStmt most depth (reach settings depth + 257) (expressionStatement settings rules) := by
  refine currentPos_quiet.andDigs fun pos => ?_
  refine (expression_digs bounded limited all small).bind fun e he => ?_
  have alone : (Stmt.expr pos e).nesting 0 ≤ reach settings depth + 257 := by
    rw [Stmt.nesting]
    omega
  refine current_quiet.andDigs fun token => ?_
  split
  · dsimp only
    split
    · exact give alone
    · refine currentPos_quiet.andDigs fun opPos => ?_
      split
      · exact ((failAt_fails _ _ _).bind _).digs
      · refine advance_quiet.andDigs fun _ => ?_
        refine (expression_digs bounded limited all small).bind fun value hvalue => give ?_
        rw [Stmt.nesting]
        omega
  · exact give alone

theorem declaration_digs (isConst : Bool) :
    DigsStmt most depth (reach settings depth + 257) (declaration settings rules isConst) := by
  refine advance_quiet.andDigs fun _ => identifier?_quiet.andDigs fun name => ?_
  cases name with
  | none => exact (failUnlessLexed_fails _ _).digs
  | some name =>
    refine advance_quiet.andDigs fun _ => ?_
    have rest : ∀ (pos : Position) (value : Option Expr),
        (∀ x ∈ value, x.nesting 0 ≤ reach settings depth + 255) →
        DigsStmt most depth (reach settings depth + 257) (do
          declare name
          return .declare pos isConst name value) := by
      intro pos value hvalue
      refine (declare_digs name).bind fun _ _ => give ?_
      cases value with
      | none => simp [Stmt.nesting]
      | some value =>
        have within := hvalue value rfl
        rw [Stmt.nesting]
        omega
    refine (accept_quiet _).andDigs fun given => ?_
    split
    · refine Digs.bind (Digs.map (expression_digs bounded limited all small) ?_) (rest _)
      exact fun e he => by simpa using he
    · refine Digs.bind (give ?_) (rest _)
      exact fun _ none => by cases none

theorem importStatement_digs :
    DigsStmt most depth (reach settings depth + 257) (importStatement settings rules) := by
  refine advance_quiet.andDigs fun _ => ?_
  refine (expression_digs bounded limited all small).bind fun target htarget => ?_
  refine (optionalAlias_quiet _).andDigs fun _ => give ?_
  rw [Stmt.nesting]
  omega

theorem whileStatement_digs :
    DigsStmt most depth (reach settings depth + 257) (whileStatement settings rules) := by
  refine advance_quiet.andDigs fun _ => ?_
  refine (expression_digs bounded limited all small).bind fun condition hcondition => ?_
  refine (inLoop_digs (blockExpr_digs bounded limited)).bind fun body hbody => give ?_
  rw [Stmt.nesting]
  omega

omit all small in
theorem loopStatement_digs :
    DigsStmt most depth (reach settings depth + 257) (loopStatement settings rules) := by
  refine advance_quiet.andDigs fun _ => ?_
  refine (inLoop_digs (blockExpr_digs bounded limited)).bind fun body hbody => give ?_
  rw [Stmt.nesting]
  omega

theorem forStatement_digs :
    DigsStmt most depth (reach settings depth + 257) (forStatement settings rules) := by
  refine advance_quiet.andDigs fun _ => identifier?_quiet.andDigs fun name => ?_
  cases name with
  | none => exact (fail_fails _ _).digs
  | some name =>
    refine advance_quiet.andDigs fun _ => (expect_quiet _ _).andDigs fun _ => ?_
    refine (expression_digs bounded limited all small).bind fun items hitems => ?_
    have body : DigsExpr most depth (reach settings depth + 1) (inScope do
        declare name
        inLoop (blockExpr settings rules)) :=
      inScope_digs ((declare_digs name).bind fun _ _ => inLoop_digs (blockExpr_digs bounded limited))
    refine body.bind fun body hbody => give ?_
    rw [Stmt.nesting]
    omega

omit small in
theorem functionDefinition_digs (access : Access) :
    Digs most depth (fun _ => True) (functionDefinition settings rules access) := by
  refine advance_quiet.andDigs fun _ => functionName_quiet.andDigs fun name => ?_
  refine advance_quiet.andDigs fun _ => (accept_quiet _).andDigs fun opened => ?_
  dsimp only
  split
  · exact ((fail_fails _ _).bind _).digs
  · refine remaining_quiet.andDigs fun n => (functionParams_quiet name _ _).andDigs fun params => ?_
    refine Quiet.read.andDigs fun s => ?_
    split
    · exact ((failAt_fails _ _ _).bind _).digs
    · refine (check_quiet _).andDigs fun opened => ?_
      split
      · exact ((fail_fails _ _).bind _).digs
      · refine (inBody_digs (block_digs bounded limited) _).bind fun r hbody => ?_
        refine define_digs fun s hs => Nat.le_trans (hbody s hs) ?_
        have less : reach settings depth ≤ reach settings 0 :=
          Nat.mul_le_mul_left _ (Nat.sub_le_sub_left (Nat.zero_le _) _)
        omega

omit small in
theorem definition_digs (isGlobal : Bool) :
    Digs most depth (fun _ => True) (definition settings rules isGlobal) := by
  unfold definition
  dsimp only
  split
  · exact ((fail_fails _ _).bind _).digs
  · refine (accept_quiet _).andDigs fun hidden => ?_
    split
    · refine (check_quiet _).andDigs fun follows => ?_
      split
      · exact ((fail_fails _ _).bind _).digs
      · exact functionDefinition_digs bounded limited all .hidden
    · exact functionDefinition_digs bounded limited all .exposed

theorem statement_digs (isGlobal : Bool) :
    Digs most depth (fun s => ∀ x ∈ s, Stmt.nesting 0 x ≤ reach settings depth + 257)
      (statement settings rules isGlobal) := by
  have one : ∀ {p : Parse Stmt}, DigsStmt most depth (reach settings depth + 257) p →
      Digs most depth (fun s => ∀ x ∈ s, Stmt.nesting 0 x ≤ reach settings depth + 257) (some <$> p) :=
    fun h => h.map fun s hs => by simpa using hs
  have jump : ∀ {stmt : Position → Stmt} (word : Text), (∀ pos, (stmt pos).nesting 0 = 0) →
      Digs most depth (fun s => ∀ x ∈ s, Stmt.nesting 0 x ≤ reach settings depth + 257)
        (some <$> loopControl word stmt) :=
    fun word leaf => one ((loopControl_digs word leaf).imp fun s hs => by rw [hs]; exact Nat.zero_le _)
  have value : ∀ {stmt : Option Expr → Stmt}, (stmt none).nesting 0 = 0 →
      (∀ e, (stmt (some e)).nesting 0 = e.nesting 0 + 1) →
      Digs most depth (fun s => ∀ x ∈ s, Stmt.nesting 0 x ≤ reach settings depth + 257) (do
        let _ ← advance
        return some (stmt (← optionalValue settings rules))) := by
    intro stmt leaf node
    refine advance_quiet.andDigs fun _ => ?_
    refine (optionalValue_digs bounded limited all small).bind fun e he => give ?_
    intro x hx
    cases hx
    cases e with
    | none => rw [leaf]; exact Nat.zero_le _
    | some e =>
      have within := he e rfl
      rw [node]
      omega
  refine currentPos_quiet.andDigs fun pos => current_quiet.andDigs fun token => ?_
  have expr : ∀ e : Expr, e.nesting 0 ≤ reach settings depth + 256 →
      ∀ x ∈ some (Stmt.expr pos e), Stmt.nesting 0 x ≤ reach settings depth + 257 := by
    intro e he x hx
    cases hx
    rw [Stmt.nesting]
    omega
  split
  · exact give fun _ none => by cases none
  · exact (blockExpr_digs bounded limited).bind fun e he => give (expr e (by omega))
  · exact (branch_digs bounded limited all small).bind fun e he => give (expr e he)
  · exact one (whileStatement_digs bounded limited all small)
  · exact one (loopStatement_digs bounded limited)
  · exact one (forStatement_digs bounded limited all small)
  · exact jump _ fun pos => by simp [Stmt.nesting]
  · exact jump _ fun pos => by simp [Stmt.nesting]
  · exact value (by simp [Stmt.nesting]) fun e => by simp [Stmt.nesting]
  · exact value (by simp [Stmt.nesting]) fun e => by simp [Stmt.nesting]
  · exact one (declaration_digs bounded limited all small false)
  · exact one (declaration_digs bounded limited all small true)
  · exact one (importStatement_digs bounded limited all small)
  · have names : DigsStmt most depth (reach settings depth + 257) exportStatement := by
      refine advance_quiet.andDigs fun _ => remaining_quiet.andDigs fun n => ?_
      exact (exportNames_digs _ _).bind fun names _ => give (by simp [Stmt.nesting])
    dsimp only
    split
    · exact ((fail_fails _ _).bind _).digs
    · exact one names
  · exact (definition_digs bounded limited all isGlobal).bind fun _ _ =>
      give fun _ none => by cases none
  · exact (definition_digs bounded limited all isGlobal).bind fun _ _ =>
      give fun _ none => by cases none
  · exact one (expressionStatement_digs bounded limited all small)

theorem topStatements_digs (n : Nat) {found : List Stmt}
    (hfound : ∀ s ∈ found, s.nesting 0 ≤ reach settings depth + 257) :
    Digs most depth (fun ss => ∀ s ∈ ss, Stmt.nesting 0 s ≤ reach settings depth + 257)
      (topStatements settings rules n found) := by
  induction n generalizing found with
  | zero => exact stop _
  | succ n ih =>
    refine atEnd_quiet.andDigs fun ended => ?_
    dsimp only
    split
    · exact give (by simpa using hfound)
    · refine (statement_digs bounded limited all small true).bind fun stmt hstmt => ?_
      refine (statementEnd_quiet _ _).andDigs fun done => ?_
      have both : ∀ s ∈ stmt.toList ++ found, s.nesting 0 ≤ reach settings depth + 257 :=
        List.forall_mem_append.mpr ⟨by simpa using hstmt, hfound⟩
      split
      · exact give (by simpa only [List.mem_reverse] using both)
      · exact ih both

end

theorem rulesAt_bounded {settings : Settings} (limited : 0 < settings.maxDepth)
    (all : reach settings 0 + 257 ≤ most) (small : ∀ e ∈ settings.operators, e.2 ≤ 255) (n : Nat) :
    (rulesAt settings n).Bounded settings most := by
  induction n with
  | zero =>
    refine ⟨?_, ?_, ?_, ?_, ?_⟩
    all_goals exact fun depth => stop _
  | succ n ih =>
    exact ⟨fun _ => expression_digs ih limited all small, fun _ => unary_digs ih limited all,
      fun _ => statement_digs ih limited all small false, fun _ => block_digs ih limited,
      fun _ => branch_digs ih limited all small⟩

end Scripting.Grammar
