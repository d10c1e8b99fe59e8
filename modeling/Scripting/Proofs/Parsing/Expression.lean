import Scripting.Proofs.Parsing.Ledger

/-
Reading expressions. Each rule of the grammar reads its parts from left to right, so a ledger is carried
on from one to the next and then has the expression that is made of them.
-/
namespace Scripting.Grammar

variable {settings : Settings} {L : Ledger settings} {before : List L.Note}

open Carries

@[simp]
theorem exprs_nil (S : Shorthand) : S.exprs [] = [] := rfl

@[simp]
theorem exprs_cons (S : Shorthand) (e : Expr) (es : List Expr) :
    S.exprs (e :: es) = S.expr e ++ S.exprs es := rfl

theorem exprs_snoc (S : Shorthand) (e : Expr) (es : List Expr) :
    S.exprs (e :: es).reverse = S.exprs es.reverse ++ S.expr e := by
  simp [Shorthand.exprs]

theorem entries_snoc (S : Shorthand) (e : Text × Expr) (es : List (Text × Expr)) :
    S.entries (e :: es).reverse = S.entries es.reverse ++ S.expr e.2 := by
  simp [Shorthand.entries]

theorem operatorCall_carries (pos : Position) (name : Text) (args : List Expr) :
    Carries L.holds (before ++ L.exprs args) (pure (operatorCall pos name args))
      fun e => before ++ L.expr e :=
  build (fun _ => trivial) rfl

/-- A sign in front of a number is taken into it. -/
theorem number_carries {e e' : Expr} (number : e.IsNumber) (made : ∀ s, Builds settings L.literals s e')
    (none : L.made (.expr e') = []) :
    Carries L.holds (before ++ L.expr e) (pure e') fun e => before ++ L.expr e :=
  fun i s b t holds eq => leaf made none i s b t (L.number number holds) eq

theorem negated_carries (pos : Position) (e : Expr) :
    Carries L.holds (before ++ L.expr e) (pure (negated pos e)) fun e => before ++ L.expr e := by
  have called : Carries L.holds (before ++ L.exprs [e]) (pure (operatorCall pos (Text.lit "-") [e]))
      fun e => before ++ L.expr e := operatorCall_carries pos _ [e]
  rw [exprs_cons, exprs_nil, List.append_nil] at called
  unfold negated
  split
  · split
    · exact number_carries trivial (fun _ => trivial) rfl
    · exact called
  · exact number_carries trivial (fun _ => trivial) rfl
  · exact called

theorem affirmed_carries (pos : Position) (e : Expr) :
    Carries L.holds (before ++ L.expr e) (pure (affirmed pos e)) fun e => before ++ L.expr e := by
  have called : Carries L.holds (before ++ L.exprs [e]) (pure (operatorCall pos (Text.lit "+") [e]))
      fun e => before ++ L.expr e := operatorCall_carries pos _ [e]
  rw [exprs_cons, exprs_nil, List.append_nil] at called
  unfold affirmed
  split
  · exact give rfl
  · exact give rfl
  · exact called

theorem combine_carries (op : Token) (pos : Position) (left right : Expr) :
    Carries L.holds (before ++ L.expr left ++ L.expr right) (pure (combine op pos left right))
      fun e => before ++ L.expr e := by
  have called : Carries L.holds (before ++ L.exprs [left, right])
      (pure (operatorCall pos op.text [left, right])) fun e => before ++ L.expr e :=
    operatorCall_carries pos _ [left, right]
  rw [exprs_cons, exprs_cons, exprs_nil, List.append_nil] at called
  rw [List.append_assoc]
  unfold combine
  split
  · exact build (fun _ => trivial) rfl
  · exact build (fun _ => trivial) rfl
  · exact build (fun _ => trivial) rfl
  · exact called

theorem thisWord_carries (pos : Position) : L.CarriesExpr before (do
    if !(← get).body.allowThis then unexpected
    let _ ← advance
    return .this pos) := by
  intro i s e t holds eq
  obtain ⟨_, _, got, h⟩ := bind_cases eq
  cases got
  split at h
  · exact (unexpected_fails.bind _ _ _ _ h).elim
  · next allowed =>
    obtain ⟨taken, u, advanced, answer⟩ := bind_cases h
    cases answer
    have skips := advance_quiet _ _ _ advanced
    refine L.builds ?_ ((List.append_nil before).symm ▸ L.skip skips holds)
    simpa [Builds, skips.body] using allowed

section

variable {rules : Rules} (covers : L.Covers rules)
include covers

variable (before) in
theorem items_carries (closer : Symbol) (unclosed unseparated : Text) (n : Nat)
    (found : List Expr) :
    Carries L.holds (before ++ L.exprs found.reverse) (items rules closer unclosed unseparated n found)
      fun es => before ++ L.exprs es := by
  induction n generalizing found with
  | zero => exact (Fails.stop _).carries _
  | succ n ih =>
    refine (accept_quiet closer).andThen fun done => ?_
    dsimp only
    split
    · exact give rfl
    · refine atEnd_quiet.andThen fun ended => ?_
      split
      · exact ((fail_fails _ _).bind _).carries _
      · refine (covers.expression _).bind fun e => ?_
        have more := ih (e :: found)
        rw [exprs_snoc, ← List.append_assoc] at more
        refine (accept_quiet _).andThen fun comma => ?_
        split
        · refine (check_quiet closer).andThen fun closes => ?_
          split
          · exact ((failUnlessLexed_fails _ _).bind _).carries _
          · exact more
        · exact more

variable (before) in
theorem allItems_carries (closer : Symbol) (unclosed unseparated : Text) (n : Nat) :
    Carries L.holds before (items rules closer unclosed unseparated n [])
      fun es => before ++ L.exprs es := by
  have all := items_carries before covers closer unclosed unseparated n []
  rwa [List.reverse_nil, exprs_nil, List.append_nil] at all

theorem arguments_carries (name : Text) :
    Carries L.holds before (arguments rules name) fun es => before ++ L.exprs es :=
  advance_quiet.andThen fun _ => remaining_quiet.andThen fun _ => allItems_carries _ covers _ _ _ _

theorem arrayLiteral_carries : L.CarriesExpr before (arrayLiteral rules) := by
  refine advance_quiet.andThen fun _ => remaining_quiet.andThen fun n => ?_
  exact (allItems_carries _ covers _ _ _ _).bind fun es => build (fun _ => trivial) rfl

variable (before) in
theorem mapEntries_carries (n : Nat) (found : List (Text × Expr)) :
    Carries L.holds (before ++ L.entries found.reverse) (mapEntries rules n found)
      fun es => before ++ L.entries es := by
  induction n generalizing found with
  | zero => exact (Fails.stop _).carries _
  | succ n ih =>
    refine (accept_quiet _).andThen fun done => ?_
    dsimp only
    split
    · exact give rfl
    · refine atEnd_quiet.andThen fun ended => ?_
      split
      · exact ((fail_fails _ _).bind _).carries _
      · refine mapKey_quiet.andThen fun key => advance_quiet.andThen fun _ => ?_
        split
        · exact ((failAt_fails _ _ _).bind _).carries _
        · refine (expect_quiet _ _).andThen fun _ => (covers.expression _).bind fun e => ?_
          have more := ih ((key, e) :: found)
          rw [entries_snoc, ← List.append_assoc] at more
          refine (accept_quiet _).andThen fun comma => ?_
          split
          · refine (check_quiet _).andThen fun closes => ?_
            split
            · exact ((failUnlessLexed_fails _ _).bind _).carries _
            · exact more
          · exact more

theorem mapLiteral_carries : L.CarriesExpr before (mapLiteral rules) := by
  refine advance_quiet.andThen fun _ => remaining_quiet.andThen fun n => ?_
  have entries := mapEntries_carries before covers (n + 1) []
  rw [List.reverse_nil, Shorthand.entries, List.flatMap_nil, List.append_nil] at entries
  refine entries.bindKnown (fun read => mapEntries_cases _ read List.nodup_nil) fun es distinct => ?_
  exact build (fun _ => distinct) rfl

theorem called_carries (pos : Position) (name : Text) (modules : List Text) :
    L.CarriesExpr before (do return .call pos name modules (← arguments rules name) false) :=
  (arguments_carries covers name).bind fun _ => build (fun _ => trivial) rfl

theorem named_carries (pos : Position) (first : Text) :
    L.CarriesExpr before (named rules pos first) := by
  refine remaining_quiet.andThen fun n => (path_quiet _ _ _).andThen fun found => ?_
  obtain ⟨modules, name⟩ := found
  refine (check_quiet _).andThen fun called => ?_
  split
  · exact called_carries covers pos name modules
  · dsimp only
    cases modules with
    | nil => exact (L.use name _).bind fun _ => build (fun _ => trivial) rfl
    | cons => exact leaf (fun _ => trivial) rfl

theorem wordCall_carries (pos : Position) (name : Text) :
    L.CarriesExpr before (wordCall rules pos name) :=
  advance_quiet.andThen fun _ => called_carries covers pos name []

theorem suffixes_carries (n : Nat) (e : Expr) :
    Carries L.holds (before ++ L.expr e) (suffixes rules n e) fun e => before ++ L.expr e := by
  induction n generalizing e with
  | zero => exact (Fails.stop _).carries _
  | succ n ih =>
    -- An expression around what has been read so far, and then more of them.
    have around : ∀ {e' parts}, (∀ s, Builds settings L.literals s e') → L.made (.expr e') = parts →
        Carries L.holds (before ++ parts) (suffixes rules n e') fun e => before ++ L.expr e :=
      fun made whole => (build made whole).bind fun _ => ih _
    refine currentPos_quiet.andThen fun pos => (accept_quiet _).andThen fun indexed => ?_
    split
    · refine (covers.expression _).bind fun index => ?_
      refine (checkIndex_quiet index).carries.bindKnown checkIndex_cases fun _ fine => ?_
      refine (expect_quiet _ _).andThen fun _ => ?_
      rw [List.append_assoc]
      exact around (fun _ => fine) rfl
    · refine (accept_quiet _).andThen fun member => ?_
      split
      · refine memberName_quiet.andThen fun name => advance_quiet.andThen fun _ => ?_
        refine (check_quiet _).andThen fun called => ?_
        split
        · refine (arguments_carries covers name).bind fun args => ?_
          rw [List.append_assoc]
          exact around (fun _ => trivial) rfl
        · exact around (fun _ => trivial) rfl
      · exact give rfl

theorem binary_carries (n least : Nat) (left : Expr) (before : List L.Note) :
    Carries L.holds (before ++ L.expr left) (binary settings rules n least left)
      fun e => before ++ L.expr e := by
  induction n generalizing least left before with
  | zero => exact (Fails.stop _).carries _
  | succ n ih =>
    refine current_quiet.andThen fun token => ?_
    dsimp only
    split
    · exact give rfl
    · refine advance_quiet.andThen fun taken => ?_
      obtain ⟨op, pos⟩ := taken
      refine (covers.unary _).bind fun right => current_quiet.andThen fun next => ?_
      have more : ∀ right, Carries L.holds (before ++ L.expr left ++ L.expr right)
          (binary settings rules n least (combine op pos left right)) fun e => before ++ L.expr e :=
        fun right => (combine_carries op pos left right).bind fun e => ih least e before
      have tighter : ∀ least, Carries L.holds (before ++ L.expr left ++ L.expr right)
          (binary settings rules n least right) fun e => before ++ L.expr left ++ L.expr e :=
        fun least => ih least right (before ++ L.expr left)
      dsimp only
      split
      · exact (give rfl).bind more
      · split
        · exact (tighter _).bind more
        · split
          · exact (tighter _).bind more
          · exact (give rfl).bind more

theorem primary_carries : L.CarriesExpr before (primary settings rules) := by
  refine currentPos_quiet.andThen fun pos => currentKnown fun token known => ?_
  have literal : ∀ e : Expr, (∀ s, Builds settings L.literals s e) → L.made (.expr e) = [] →
      L.CarriesExpr before (do let _ ← advance; return e) :=
    fun e made none => advance_quiet.andThen fun _ => leaf made none
  split
  · exact literal _ (fun _ => trivial) rfl
  · exact literal _ (fun _ => trivial) rfl
  · exact literal _ (fun _ => known.resolve_left nofun) rfl
  · exact literal _ (fun _ => known.resolve_left nofun) rfl
  · exact literal _ (fun _ => trivial) rfl
  · exact literal _ (fun _ => trivial) rfl
  · refine advance_quiet.andThen fun _ => (accept_quiet _).andThen fun closed => ?_
    split
    · exact leaf (fun _ => trivial) rfl
    · refine (covers.expression _).bind fun e => ?_
      exact (expect_quiet _ _).andThen fun _ => give rfl
  · exact arrayLiteral_carries covers
  · exact mapLiteral_carries covers
  · dsimp only
    split
    · exact (unexpected_fails.bind _).carries _
    · next allowed =>
      have allowed : settings.allowBlock = true := by simpa using allowed
      exact (covers.block allowed _).bind fun b => build (fun _ => allowed) rfl
  · dsimp only
    split
    · exact (unexpected_fails.bind _).carries _
    · next allowed => exact covers.branch (by simpa using allowed) _
  · dsimp only
    split
    · exact (unexpected_fails.bind _).carries _
    · next allowed => exact covers.closure (by simpa using allowed) _
  · dsimp only
    split
    · exact (unexpected_fails.bind _).carries _
    · next allowed => exact covers.closure (by simpa using allowed) _
  · exact advance_quiet.andThen fun _ => named_carries covers pos _
  · refine second_quiet.andThen fun next => ?_
    split
    · exact wordCall_carries covers pos _
    · exact unexpected_fails.carries _
  · split
    · exact thisWord_carries pos
    · refine second_quiet.andThen fun next => ?_
      split
      · exact wordCall_carries covers pos _
      · exact unexpected_fails.carries _
  · exact unexpected_fails.carries _

theorem operand_carries : L.CarriesExpr before (operand settings rules) := by
  refine (primary_carries covers).bind fun e => ?_
  exact remaining_quiet.andThen fun n => suffixes_carries covers _ e

theorem unary_carries : L.CarriesExpr before (unary settings rules) := by
  refine Carries.nested ?_
  refine currentPos_quiet.andThen fun pos => current_quiet.andThen fun token => ?_
  have signed : ∀ f : Expr → Expr, (∀ e, Carries L.holds (before ++ L.expr e) (pure (f e))
      fun e => before ++ L.expr e) →
      L.CarriesExpr before (do let _ ← advance; return f (← rules.unary)) :=
    fun f made => advance_quiet.andThen fun _ => (covers.unary _).bind made
  split
  · exact signed _ (negated_carries pos)
  · exact signed _ (negated_carries pos)
  · exact signed _ (affirmed_carries pos)
  · exact signed _ (affirmed_carries pos)
  · refine signed (fun e => operatorCall pos (Text.lit "!") [e]) fun e => ?_
    have called : Carries L.holds (before ++ L.exprs [e]) (pure (operatorCall pos (Text.lit "!") [e]))
        fun e => before ++ L.expr e := operatorCall_carries pos _ [e]
    rwa [exprs_cons, exprs_nil, List.append_nil] at called
  · exact operand_carries covers

theorem expression_carries : L.CarriesExpr before (expression settings rules) := by
  refine (unary_carries covers).bind fun left => ?_
  exact remaining_quiet.andThen fun n => binary_carries covers _ _ left before

end

end Scripting.Grammar
