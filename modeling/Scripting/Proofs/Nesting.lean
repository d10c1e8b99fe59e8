import Scripting.Proofs.Parsing.Depth

/-
How deep an accepted script nests, by the limit of the parser. But for chains, the limit bounds the
nesting of every statement and function body; chains of any length are accepted under every limit.
-/
namespace Scripting.Grammar

/-! Sums, as chains of operators. -/

def oneToken : PlacedToken := (.integer (Integer.ofNat 1), ⟨1, 1⟩)

def oneExpr : Expr := .int ⟨1, 1⟩ (Integer.ofNat 1)

def plusToken : PlacedToken := (.symbol .plus, ⟨1, 2⟩)

/-- The tokens of `+1+1…`, with so many operators. -/
def sumTokens : Nat → List PlacedToken
  | 0 => []
  | n + 1 => plusToken :: oneToken :: sumTokens n

def sumExpr : Nat → Expr → Expr
  | 0, left => left
  | n + 1, left => sumExpr n (combine plusToken.1 plusToken.2 left oneExpr)

theorem nesting_sum (n : Nat) (left : Expr) : n + left.nesting 1 ≤ (sumExpr n left).nesting 1 := by
  induction n generalizing left with
  | zero => exact Nat.le_of_eq (Nat.zero_add _)
  | succ n ih =>
    have step : left.nesting 1 + 1 ≤
        (combine plusToken.1 plusToken.2 left oneExpr).nesting 1 := by
      simp [combine, plusToken, oneExpr, operatorCall, Expr.nesting, Expr.nestingOperands]
    have rest := ih (combine plusToken.1 plusToken.2 left oneExpr)
    rw [sumExpr]
    omega

def State.before (endPos : Position) (tokens : List PlacedToken) : State :=
  { rest := tokens, endPos := endPos, nextClosure := 0 }

def strict : Settings := { maxDepth := 1 }

variable (endPos : Position)

theorem unaryAt_one (k n : Nat) : unaryAt strict (k + 1) (.before endPos (oneToken :: sumTokens n)) =
    .ok oneExpr (.before endPos (sumTokens n)) := by
  cases n <;> rfl

theorem binary_sum (k n fuel : Nat) (enough : n < fuel) (left : Expr) :
    binary strict (rulesAt strict (k + 1)) fuel 1 left (.before endPos (sumTokens n)) =
      .ok (sumExpr n left) (.before endPos []) := by
  induction n generalizing fuel left with
  | zero =>
    obtain ⟨fuel, rfl⟩ := Nat.exists_eq_succ_of_ne_zero (Nat.ne_of_gt enough)
    exact binary_stops Nat.one_pos
  | succ n ih =>
    obtain ⟨fuel, rfl⟩ := Nat.exists_eq_succ_of_ne_zero (Nat.ne_of_gt (Nat.zero_lt_of_lt enough))
    have follows : isPeriod (State.before endPos (sumTokens n)).current.1 = false := by
      cases n <;> rfl
    have level : ¬ plusToken.1.precedence strict.operators <
        (State.before endPos (sumTokens n)).current.1.precedence strict.operators := by
      cases n with
      | zero => exact Nat.not_lt_zero _
      | succ n => exact Nat.lt_irrefl 150
    have goes : binary strict (rulesAt strict (k + 1)) (fuel + 1) 1 left
        (.before endPos (sumTokens (n + 1))) = _ :=
      binary_goes fuel left (show _ = plusToken from rfl) ⟨by decide, rfl⟩ (show 1 ≤ 150 by decide)
        (unaryAt_one endPos k n) follows
    rw [goes, if_neg level]
    exact ih fuel (by omega) _

theorem length_sumTokens (n : Nat) : (sumTokens n).length = 2 * n := by
  induction n with
  | zero => rfl
  | succ n ih =>
    simp only [sumTokens, List.length_cons, ih]
    omega

theorem takeWhile_sumTokens (n : Nat) : (sumTokens n).takeWhile (!·.1.isEof) = sumTokens n := by
  induction n with
  | zero => rfl
  | succ n ih =>
    have taken : (sumTokens (n + 1)).takeWhile (!·.1.isEof) =
        plusToken :: oneToken :: (sumTokens n).takeWhile (!·.1.isEof) := rfl
    rw [taken, ih]
    rfl

/-- Sums of any length are accepted under the least limit. -/
theorem parse_sum (n : Nat) : (parse strict true (oneToken :: sumTokens n) 0).1 =
    .ok ⟨[.expr ⟨1, 1⟩ (sumExpr n oneExpr)], []⟩ := by
  have start : ∃ endPos, State.start (oneToken :: sumTokens n) 0 = .before endPos (oneToken :: sumTokens n) := by
    refine ⟨(State.start (oneToken :: sumTokens n) 0).endPos, ?_⟩
    have rest : (oneToken :: sumTokens n).takeWhile (!·.1.isEof) = oneToken :: sumTokens n :=
      congrArg (oneToken :: ·) (takeWhile_sumTokens n)
    unfold State.start State.before
    rw [rest]
  obtain ⟨endPos, start⟩ := start
  let here : State := .before endPos (oneToken :: sumTokens n)
  have read : expression strict (rulesAt strict (nestingBound here.rest.length)) here =
      .ok (sumExpr n oneExpr) (.before endPos []) := by
    have enough : n < (sumTokens n).length + 1 := by
      rw [length_sumTokens]
      omega
    have first : unary strict (rulesAt strict (nestingBound here.rest.length)) here =
        .ok oneExpr (.before endPos (sumTokens n)) := unaryAt_one endPos _ n
    unfold expression
    rw [bind_of_ok first, bind_of_ok (remaining_ok _)]
    exact binary_sum endPos _ n _ enough _
  have whole : singleExpression strict here =
      .ok ⟨[.expr ⟨1, 1⟩ (sumExpr n oneExpr)], []⟩ (.before endPos []) := by
    unfold singleExpression
    rw [bind_of_ok (currentPos_ok here),
      bind_of_ok (remaining_ok here), bind_of_ok read]
    rfl
  unfold parse
  rw [start]
  simp only [if_true]
  rw [whole]

/-- Aside from chains, a script nests at most 257 levels for each level of the limit, and 257 more: as
many as there are levels of precedence, with one for a sign or suffix and one for a statement. -/
theorem nesting_is_limited_aside_from_chains (settings : Settings) (limited : 0 < settings.maxDepth)
    (small : ∀ e ∈ settings.operators, e.2 ≤ 255) (asExpression : Bool) (tokens : List PlacedToken)
    (nextClosure : Nat) (script : Script)
    (accepted : (parse settings asExpression tokens nextClosure).1 = .ok script) :
    (∀ s ∈ script.statements, s.nesting 0 ≤ 257 * (settings.maxDepth + 1)) ∧
      ∀ f ∈ script.functions, ∀ s ∈ f.2.body, s.nesting 0 ≤ 257 * (settings.maxDepth + 1) := by
  have bounded := rulesAt_bounded limited (Nat.le_refl _) small
  have whole : Digs (reach settings 0 + 257) 0 (fun script : Script =>
      (∀ s ∈ script.statements, s.nesting 0 ≤ reach settings 0 + 257) ∧
        ∀ f ∈ script.functions, ∀ s ∈ f.2.body, s.nesting 0 ≤ reach settings 0 + 257)
      (if asExpression then singleExpression settings else Grammar.script settings) := by
    split
    · refine currentPos_quiet.andDigs fun pos => remaining_quiet.andDigs fun n => ?_
      refine (expression_digs (bounded _) limited (Nat.le_refl _) small).bind fun e he => ?_
      refine atEnd_quiet.andDigs fun ended => ?_
      dsimp only
      split
      · exact (unexpected_fails.bind _).digs
      · refine Digs.get_bind fun s shallow => .give ⟨fun stmt hstmt => ?_, shallow⟩
        rw [List.mem_singleton.mp hstmt, Stmt.nesting]
        omega
    · refine remaining_quiet.andDigs fun n => ?_
      refine (topStatements_digs (bounded _) limited (Nat.le_refl _) small _
        fun _ none => by cases none).bind fun ss hss => ?_
      exact Digs.get_bind fun s shallow => .give ⟨hss, shallow⟩
  unfold parse at accepted
  dsimp only at accepted
  split at accepted
  · next made s eq =>
    cases accepted
    obtain ⟨-, -, result⟩ := whole _ _ _ (fun _ none => by cases none) rfl eq
    exact result
  · cases accepted

/-- The sum of four ones under the least limit. -/
theorem nesting_is_limited_for_sum : (parse strict true (oneToken :: sumTokens 3) 0).1 =
      .ok ⟨[.expr ⟨1, 1⟩ (sumExpr 3 oneExpr)], []⟩ ∧
    ∀ s ∈ [Stmt.expr ⟨1, 1⟩ (sumExpr 3 oneExpr)], s.nesting 0 ≤ 257 * 2 :=
  ⟨parse_sum 3, (nesting_is_limited_aside_from_chains strict Nat.one_pos (fun _ none => by cases none)
    true (oneToken :: sumTokens 3) 0 _ (parse_sum 3)).1⟩

/-- A sum nests as deep as it is long, whatever the limit. -/
theorem chains_nest_without_limit : ¬ ∀ limit, 0 < limit → ∃ bound,
    ∀ (settings : Settings) (asExpression : Bool) (tokens : List PlacedToken) (nextClosure : Nat)
      (script : Script), settings.maxDepth = limit → (∀ e ∈ settings.operators, e.2 ≤ 255) →
      (parse settings asExpression tokens nextClosure).1 = .ok script →
      (∀ s ∈ script.statements, s.nesting 1 ≤ bound) ∧
        ∀ f ∈ script.functions, ∀ s ∈ f.2.body, s.nesting 1 ≤ bound := by
  intro claim
  obtain ⟨bound, bounds⟩ := claim 1 Nat.one_pos
  obtain ⟨statements, -⟩ := bounds strict true (oneToken :: sumTokens bound) 0 _ rfl
    (fun _ none => by cases none) (parse_sum bound)
  have within := statements _ List.mem_cons_self
  have deep := nesting_sum bound oneExpr
  rw [Stmt.nesting] at within
  omega

end Scripting.Grammar
