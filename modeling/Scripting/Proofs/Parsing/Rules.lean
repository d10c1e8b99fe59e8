import Scripting.Engine
import Scripting.Proofs.Parsing.Statement
import Scripting.Proofs.Parsing.Pace
import Scripting.Proofs.Running

/-
The rules of the grammar, one at a time. What a rule enters before it has taken a token needs one
level of nesting less than the rule itself, and each token that is taken makes room for two.
-/
namespace Scripting.Grammar

theorem count_of_precedence {operators : OperatorTable} {token : Token}
    (binds : token.precedence operators ≠ 0) : 1 ≤ token.count := by
  cases token with
  | symbol s => exact Nat.le_refl 1
  | custom t => exact Nat.le_refl 1
  | _ => exact absurd rfl binds

def Opens (tokens : List PlacedToken) (l : Nat) (p : Parse (Option Stmt)) : Prop :=
  ∀ s, s.rest <:+ tokens → s.rest.length ≤ l → Paced tokens s (fun t =>
    t.rest.length + 1 ≤ s.rest.length ∨ t = s ∧ s.current.1 = .symbol .semicolon) (p s)

/-- The parts of the grammar that contain each other, each with enough levels for so many tokens. -/
structure Rules.Pace (tokens : List PlacedToken) (levels : Nat) (rules : Rules) : Prop where
  expression : ∀ l, 2 * l + 2 ≤ levels → Paces tokens 0 l 1 rules.expression
  unary : ∀ l, 2 * l + 2 ≤ levels → Paces tokens 0 l 1 rules.unary
  statement : ∀ l, 2 * l + 2 ≤ levels → Opens tokens l rules.statement
  block : ∀ l, 2 * l + 1 ≤ levels → Paces tokens 0 l 1 rules.block
  branch : ∀ l, 2 * l + 1 ≤ levels → Paces tokens 1 l 1 rules.branch

variable {tokens : List PlacedToken} {α : Type} {g l k levels : Nat}

theorem Opens.paces {p : Parse (Option Stmt)} (h : Opens tokens l p) : Paces tokens g l 0 p := by
  intro s within _ most
  refine (h s within most).imp ?_
  rintro t (taken | ⟨rfl, -⟩)
  · omega
  · exact Nat.le_refl _

open Paces

variable {β : Type}

theorem mapKey_bind {f : Text → Parse β} (hf : ∀ key, Paces tokens (max g 1) l k (f key)) :
    Paces tokens g l k (mapKey >>= f) := by
  unfold mapKey
  rw [bind_assoc]
  refine current_bind fun token => ?_
  split
  · exact hf _
  · exact hf _
  · exact failed (fun _ => failUnlessLexed_paces _ _) _

theorem take_bind {f : PlacedToken → Parse β}
    (hf : 1 ≤ l → ∀ token, Paces tokens 0 (l - 1) (k - 1) (f token)) :
    Paces tokens (max g 1) l k (advance >>= f) :=
  (advance_paces.bind hf).weaken (Nat.le_max_right g 1) (Nat.le_refl _) (Nat.le_refl _)

theorem pathStep_paces (n : Nat) (modules : List Text) (name : Text) (next : Option Text)
    (step : ∀ next, Paces tokens 0 (l - 1) k (path n (modules ++ [name]) next)) :
    Paces tokens (max g next.isSome.toNat) l k (match next with
      | some next => do
        let _ ← advance
        path n (modules ++ [name]) next
      | none => fail .variableExpected
          (Text.lit "Expecting name of a variable or function after '::'")) := by
  cases next with
  | some next =>
    refine take_bind fun _ _ => ?_
    exact (step next).weaken (Nat.le_refl _) (Nat.le_refl _) (Nat.sub_le _ _)
  | none => exact fail_paces _ _

theorem path_paces (n : Nat) (modules : List Text) (name : Text) (enough : l < n) :
    Paces tokens g l 0 (path n modules name) := by
  induction n generalizing modules name g l with
  | zero => omega
  | succ n ih =>
    refine accept_bind _ fun found taken => ?_
    cases found with
    | false => exact give _
    | true =>
      have taken : 1 ≤ l := taken
      have step : ∀ next, Paces tokens 0 (l - 1 - 1) 0 (path n (modules ++ [name]) next) :=
        fun next => ih _ _ (by omega)
      refine identifier?_bind fun word => ?_
      cases word with
      | some word => exact pathStep_paces n modules name (some word) step
      | none => exact service?_bind fun next => pathStep_paces n modules name next step

theorem separator_paces {refuse : Parse PUnit} {p : Parse α} (closer : Symbol)
    (refused : ∀ {g l k}, Paces tokens g l k refuse) (h : ∀ l' ≤ l, Paces tokens 0 l' k p) :
    Paces tokens g l k (do
      if !(← accept .comma) then
        if !(← check closer) then refuse
      p) := by
  refine accept_bind _ fun comma _ => ?_
  cases comma with
  | true => exact (h _ (by simp)).weaken (Nat.le_refl _) (Nat.le_refl _) (by simp)
  | false =>
    refine check_bind _ fun closes => ?_
    cases closes with
    | true => exact (h _ (by simp)).anywhere
    | false => exact failed (fun _ => refused) _

theorem closureParams_paces (n : Nat) (params : List Text) (enough : l < n) :
    Paces tokens g l 0 (closureParams n params) := by
  induction n generalizing params g l with
  | zero => omega
  | succ n ih =>
    refine accept_bind _ fun found _ => ?_
    cases found with
    | true => exact give _
    | false =>
      refine identifier?_bind fun name => ?_
      cases name with
      | none => exact failUnlessLexed_paces _ _
      | some param =>
        refine take_bind fun _ taken => ?_
        dsimp only
        split
        · exact failed (fun _ => failAt_paces _ _ _) _
        · exact separator_paces _ (fail_paces _ _) fun l' _ => ih _ (by omega)

theorem checkIndex_paces (e : Expr) : Paces tokens g l 0 (checkIndex e) := by
  unfold checkIndex
  split
  · split
    · exact failAt_paces _ _ _
    · exact give ()
  · exact failAt_paces _ _ _
  · exact failAt_paces _ _ _
  · exact failAt_paces _ _ _
  · exact failAt_paces _ _ _
  · exact give ()

theorem memberName_bind {f : Text → Parse β} (hf : ∀ name, Paces tokens (max g 1) l k (f name)) :
    Paces tokens g l k (memberName >>= f) := by
  unfold memberName
  rw [bind_assoc]
  refine current_bind fun token => ?_
  split
  · exact hf _
  · exact hf _
  · split
    · exact hf _
    · exact failed (fun _ => fail_paces _ _) _
  · exact failed (fun _ => fail_paces _ _) _

section Expressions

variable {rules : Rules} (pace : rules.Pace tokens levels)
include pace

theorem items_paces (closer : Symbol) (unclosed unseparated : Text) (n : Nat) (found : List Expr)
    (enough : l < n) (room : 2 * l + 2 ≤ levels) :
    Paces tokens g l 0 (items rules closer unclosed unseparated n found) := by
  induction n generalizing found g l with
  | zero => omega
  | succ n ih =>
    refine accept_bind _ fun closes _ => ?_
    cases closes with
    | true => exact give _
    | false =>
      refine atEnd_bind fun ended => ?_
      cases ended with
      | true => exact failed (fun _ => fail_paces _ _) _
      | false =>
        refine (pace.expression l room).bind fun taken e => ?_
        refine separator_paces _ (failUnlessLexed_paces _ _) fun l' less => ?_
        exact ih _ (by omega) (by omega)

theorem arguments_paces (name : Text) (room : 2 * l + 2 ≤ levels) :
    Paces tokens 1 l 0 (arguments rules name) := by
  refine advance_paces.bind fun _ _ => remaining_bind fun n less => ?_
  exact items_paces pace _ _ _ _ _ (by omega) (by omega)

theorem arrayLiteral_paces (room : 2 * l ≤ levels) : Paces tokens 1 l 1 (arrayLiteral rules) := by
  refine advance_paces.bind fun taken _ => remaining_bind fun n less => ?_
  exact (items_paces pace _ _ _ _ _ (by omega) (by omega)).bind fun _ _ => give _

theorem mapEntries_paces (n : Nat) (found : List (Text × Expr)) (enough : l < n)
    (room : 2 * l + 2 ≤ levels) : Paces tokens g l 0 (mapEntries rules n found) := by
  induction n generalizing found g l with
  | zero => omega
  | succ n ih =>
    refine accept_bind _ fun closes _ => ?_
    cases closes with
    | true => exact give _
    | false =>
      refine atEnd_bind fun ended => ?_
      cases ended with
      | true => exact failed (fun _ => fail_paces _ _) _
      | false =>
        refine mapKey_bind fun key => take_bind fun some r => ?_
        obtain ⟨token, keyPos⟩ := r
        dsimp only
        split
        · exact failed (fun _ => failAt_paces _ _ _) _
        · refine (expect_paces _ _).bind fun _ _ => ?_
          refine (pace.expression _ (by omega)).bind fun taken e => ?_
          refine separator_paces _ (failUnlessLexed_paces _ _) fun l' less => ?_
          exact ih _ (by omega) (by omega)

theorem mapLiteral_paces (room : 2 * l ≤ levels) : Paces tokens 1 l 1 (mapLiteral rules) := by
  refine advance_paces.bind fun taken _ => remaining_bind fun n less => ?_
  exact (mapEntries_paces pace _ _ (by omega) (by omega)).bind fun _ _ => give _

theorem named_paces (pos : Position) (first : Text) (room : 2 * l + 2 ≤ levels) :
    Paces tokens g l 0 (named rules pos first) := by
  refine remaining_bind fun n less => ?_
  refine (path_paces _ _ _ (by omega)).bind fun _ r => ?_
  obtain ⟨modules, name⟩ := r
  refine check_bind _ fun opened => ?_
  cases opened with
  | true =>
    exact ((arguments_paces pace name (by omega)).bind fun _ _ => give _).weaken
      (Nat.le_max_right _ _) (Nat.le_refl _) (Nat.le_refl _)
  | false =>
    change Paces tokens 0 n 0 (if modules.isEmpty = true then use name >>= fun _ => pure _ else pure _)
    split
    · exact (use_paces name).bind fun _ _ => give _
    · exact give _

theorem closureBody_paces (pos : Position) (params : List Text) (room : 2 * l + 2 ≤ levels) :
    Paces tokens 0 l 0 (closureBody rules pos params) := by
  refine currentPos_bind fun bodyPos => ?_
  refine (inBody_paces (pace.statement l (by omega)).paces _).bind fun _ r => ?_
  obtain ⟨body, inner⟩ := r
  refine freshClosure_bind (fun _ => rfl) fun id => ?_
  exact (useAll_paces _).bind fun _ _ => give _

theorem closure_paces (room : 2 * l ≤ levels) : Paces tokens 1 l 1 (closure rules) := by
  refine advance_paces.bind fun taken r => ?_
  obtain ⟨token, pos⟩ := r
  dsimp only
  split
  · exact closureBody_paces pace pos [] (by omega)
  · refine remaining_bind fun n less => ?_
    refine (closureParams_paces _ _ (by omega)).bind fun _ params => ?_
    exact closureBody_paces pace pos params (by omega)

theorem wordCall_paces (pos : Position) (name : Text) (room : 2 * l ≤ levels) :
    Paces tokens 1 l 1 (do
      if isOpenParen (← second) then wordCall rules pos name else unexpected) := by
  intro s within least most
  obtain ⟨ran, onto⟩ := advance_to tokens least
  obtain ⟨later, rest, -⟩ := s.current_cases least
  let after : State := { s with rest := s.rest.tail }
  change Paced tokens s _ ((if isOpenParen after.current.1 then wordCall rules pos name else unexpected :
    Parse Expr) s)
  split
  · next opened =>
    have one : 1 ≤ after.current.1.count := by
      cases token : after.current.1 with
      | symbol symbol => exact Nat.le_refl 1
      | _ =>
        rw [token] at opened
        cases opened
    have call : Paces tokens 1 (l - 1) 0 (do
        return Expr.call pos name [] (← arguments rules name) false) :=
      (arguments_paces pace name (by simp only [rest, List.length_cons] at most; omega)).bind
        fun _ _ => give _
    unfold wordCall
    rw [bind_of_ok ran]
    have fewer : after.rest.length + 1 = s.rest.length := by simp [after, rest]
    refine ((call after (onto.rest.trans within) one (by omega)).after onto).imp fun t ht => ?_
    omega
  · exact unexpected_paces s within least most

variable (settings : Settings)

theorem primary_paces (room : 2 * l + 1 ≤ levels) : Paces tokens 0 l 1 (primary settings rules) := by
  have literal : ∀ e : Expr, Paces tokens 1 l 1 (advance >>= fun _ => pure e) :=
    fun e => advance_paces.bind fun _ _ => give e
  refine currentPos_bind fun pos => current_bind fun token => ?_
  split
  · exact literal _
  · exact literal _
  · exact literal _
  · exact literal _
  · exact literal _
  · exact literal _
  · refine advance_paces.bind fun taken _ => accept_bind _ fun closes _ => ?_
    cases closes with
    | true => exact give _
    | false =>
      refine (pace.expression (l - 1) (by omega)).bind fun _ e => ?_
      exact (expect_paces _ _).bind fun _ _ => give e
  · exact arrayLiteral_paces pace (by omega)
  · exact mapLiteral_paces pace (by omega)
  · dsimp only
    split
    · exact failed (fun _ => unexpected_paces) _
    · exact ((pace.block l room).bind fun _ _ => give _).anywhere
  · dsimp only
    split
    · exact failed (fun _ => unexpected_paces) _
    · exact pace.branch l room
  · dsimp only
    split
    · exact failed (fun _ => unexpected_paces) _
    · exact closure_paces pace (by omega)
  · dsimp only
    split
    · exact failed (fun _ => unexpected_paces) _
    · exact closure_paces pace (by omega)
  · refine advance_paces.bind fun taken _ => ?_
    exact named_paces pace pos _ (by omega)
  · exact wordCall_paces pace pos _ (by omega)
  · next name =>
    dsimp only
    split
    · refine get_bind fun s => ?_
      split
      · exact failed (fun _ => unexpected_paces) _
      · exact literal _
    · cases known : (Service.ofText? name).isSome with
      | true => exact wordCall_paces pace pos _ (by omega)
      | false => exact second_bind fun next => unexpected_paces
  · exact unexpected_paces

theorem suffixes_paces (n : Nat) (e : Expr) (enough : l < n) (room : 2 * l + 2 ≤ levels) :
    Paces tokens g l 0 (suffixes rules n e) := by
  induction n generalizing e g l with
  | zero => omega
  | succ n ih =>
    refine currentPos_bind fun pos => accept_bind _ fun opened taken => ?_
    cases opened with
    | true =>
      have taken : 1 ≤ l := taken
      refine (pace.expression (l - 1) (by omega)).bind fun _ index => ?_
      refine (checkIndex_paces index).bind fun _ _ => (expect_paces _ _).bind fun _ _ => ?_
      exact ih _ (by omega) (by omega)
    | false =>
      refine accept_bind _ fun point taken => ?_
      cases point with
      | false => exact give e
      | true =>
        have taken : 1 ≤ l := taken
        change Paces tokens 0 (l - 1) 0 _
        refine memberName_bind fun name => take_bind fun _ _ => ?_
        refine check_bind _ fun called => ?_
        cases called with
        | true =>
          refine Paces.bind (arguments_paces pace name (by omega)) fun _ args => ?_
          exact ih _ (by omega) (by omega)
        | false => exact ih _ (by omega) (by omega)

theorem operand_paces (room : 2 * l + 1 ≤ levels) : Paces tokens 0 l 1 (operand settings rules) := by
  refine (primary_paces pace settings room).bind fun taken e => remaining_bind fun n less => ?_
  exact suffixes_paces pace _ e (by omega) (by omega)

theorem unary_paces (room : 2 * l + 1 ≤ levels) : Paces tokens 0 l 1 (unary settings rules) := by
  have signed : ∀ f : Expr → Expr, Paces tokens 1 l 1 (advance >>= fun _ => do
      return f (← rules.unary)) := by
    intro f
    refine advance_paces.bind fun taken _ => ?_
    exact (pace.unary (l - 1) (by omega)).bind fun _ _ => give _
  refine nested_paces ?_ settings
  refine currentPos_bind fun pos => current_bind fun token => ?_
  split
  · exact signed _
  · exact signed _
  · exact signed _
  · exact signed _
  · exact signed fun e => operatorCall pos (Text.lit "!") [e]
  · exact (operand_paces pace settings room).anywhere

theorem binary_paces (n least : Nat) (left : Expr) (enough : l < n) (room : 2 * l + 2 ≤ levels) :
    Paces tokens g l 0 (binary settings rules n least left) := by
  induction n generalizing least left g l with
  | zero => omega
  | succ n ih =>
    refine current_bind fun token => ?_
    dsimp only
    split
    · exact give left
    · next binds =>
      have one : max g 1 ≤ max g token.count := by
        have := count_of_precedence fun none => binds (.inl none)
        omega
      refine Paces.weaken (take_bind fun some r => ?_) one (Nat.le_refl l) (Nat.le_refl 0)
      obtain ⟨op, pos⟩ := r
      refine (pace.unary (l - 1) (by omega)).bind fun taken right => ?_
      refine current_bind fun next => ?_
      have later : ∀ right, Paces tokens 0 (l - 1 - 1) 0
          (binary settings rules n least (combine op pos left right)) :=
        fun right => ih _ _ (by omega) (by omega)
      have inner : ∀ least', Paces tokens 0 (l - 1 - 1) 0 (binary settings rules n least' right) :=
        fun least' => ih _ _ (by omega) (by omega)
      dsimp only
      split
      · exact (later right).anywhere
      · split
        · exact ((inner _).bind fun _ right => later right).anywhere
        · split
          · exact ((inner _).bind fun _ right => later right).anywhere
          · exact (later right).anywhere

theorem expression_paces (room : 2 * l + 1 ≤ levels) :
    Paces tokens 0 l 1 (expression settings rules) := by
  refine (unary_paces pace settings room).bind fun taken left => remaining_bind fun n less => ?_
  exact binary_paces pace settings _ _ left (by omega) (by omega)

end Expressions

theorem closed_bind (closer : Option Symbol) {β : Type} {f : Bool → Parse β}
    (hf : ∀ finished, Paces tokens 0 l k (f finished)) : Paces tokens g l k (closed closer >>= f) := by
  unfold closed
  rw [bind_assoc]
  refine atEnd_bind fun ended => ?_
  cases ended with
  | true => exact (hf true).anywhere
  | false =>
    cases closer with
    | none => exact (hf false).anywhere
    | some symbol => exact check_bind symbol fun found => (hf found).anywhere

theorem statementEnd_paces (stmt : Option Stmt) (closer : Option Symbol) :
    Paces tokens g l 0 (statementEnd stmt closer) := by
  refine closed_bind closer fun finished => ?_
  cases finished with
  | true => exact give true
  | false =>
    refine accept_bind _ fun found _ => ?_
    cases found with
    | true =>
      have last : Paces tokens 0 (l - 1) 0 (closed closer >>= pure) := closed_bind closer give
      rwa [bind_pure] at last
    | false =>
      change Paces tokens 0 l 0 (if stmt.all (·.endsInBlock) = true then pure false else _)
      split
      · exact give false
      · exact failUnlessLexed_paces _ _

theorem check_looks (symbol : Symbol) (s : State) : ∃ found, check symbol s = .ok found s := by
  unfold check
  rw [bind_of_ok (current_ok s)]
  cases s.current.1 with
  | symbol other => exact ⟨_, rfl⟩
  | _ => exact ⟨false, rfl⟩

theorem closed_looks (closer : Option Symbol) (s : State) :
    ∃ finished, closed closer s = .ok finished s := by
  unfold closed
  rw [bind_of_ok (atEnd_ok s)]
  cases s.current.1.isEof with
  | true => exact ⟨true, rfl⟩
  | false =>
    cases closer with
    | none => exact ⟨false, rfl⟩
    | some symbol => exact check_looks symbol s

theorem accept_here {s : State} {symbol : Symbol} (here : s.current.1 = .symbol symbol) :
    accept symbol s = .ok true { s with rest := s.rest.tail } := by
  have checked : check symbol s = .ok true s := by
    unfold check
    rw [bind_of_ok (current_ok s), here]
    simp only [decide_true]
    rfl
  exact bind_of_ok checked _

theorem statementEnd_semicolon {s : State} (here : s.current.1 = .symbol .semicolon)
    (within : s.rest <:+ tokens) (most : s.rest.length ≤ l) (closer : Option Symbol)
    (stmt : Option Stmt) {β : Type} {f : Bool → Parse β}
    (finished : ∀ l' ≤ l, Paces tokens 0 l' 0 (f true))
    (more : 1 ≤ l → Paces tokens 0 (l - 1) 0 (f false)) :
    Paced tokens s (fun t => t.rest.length ≤ s.rest.length) ((statementEnd stmt closer >>= f) s) := by
  have some : 1 ≤ s.current.1.count := by
    rw [here]
    exact Nat.le_refl 1
  obtain ⟨-, onto⟩ := advance_to tokens some
  obtain ⟨others, rest, -⟩ := s.current_cases some
  obtain ⟨b, looked⟩ := closed_looks closer s
  unfold statementEnd
  rw [bind_assoc, bind_of_ok looked]
  cases b with
  | true => exact finished l (Nat.le_refl _) s within (Nat.zero_le _) most
  | false =>
    simp only [Bool.false_eq_true, if_false]
    rw [bind_assoc, bind_of_ok (accept_here here)]
    have fewer : s.rest.tail.length + 1 = s.rest.length := by simp [rest]
    have later : Paces tokens 0 (l - 1) 0 (closed closer >>= f) := by
      refine closed_bind closer fun done => ?_
      cases done with
      | true => exact finished _ (by omega)
      | false => exact more (by omega)
    refine ((later { s with rest := s.rest.tail } (onto.rest.trans within) (Nat.zero_le _)
      (by dsimp only; omega)).after onto).imp fun u hu => ?_
    dsimp only at hu
    omega

theorem Opens.ended {p : Parse (Option Stmt)} (h : Opens tokens l p) (closer : Option Symbol)
    {β : Type} {f : Option Stmt → Bool → Parse β}
    (finished : ∀ stmt, ∀ l' ≤ l, Paces tokens 0 l' 0 (f stmt true))
    (more : 1 ≤ l → ∀ stmt, Paces tokens 0 (l - 1) 0 (f stmt false)) :
    Paces tokens g l 0 (p >>= fun stmt => statementEnd stmt closer >>= f stmt) := by
  intro s within _ most
  refine Paced.bind (h s within most) fun stmt t onto => ?_
  rintro (taken | ⟨rfl, here⟩)
  · have some : 1 ≤ l := by omega
    have later : Paces tokens 0 (l - 1) 0 (statementEnd stmt closer >>= f stmt) := by
      refine (statementEnd_paces stmt closer).bind fun _ done => ?_
      cases done with
      | true => exact finished stmt _ (by omega)
      | false => exact more some stmt
    refine (later t (onto.rest.trans within) (Nat.zero_le _) (by omega)).imp fun u hu => ?_
    omega
  · exact statementEnd_semicolon here within most closer stmt (finished stmt) fun some => more some stmt

theorem optionalAlias_paces (missing : Text) : Paces tokens g l 0 (optionalAlias missing) := by
  refine accept_bind _ fun found _ => ?_
  cases found with
  | false => exact give none
  | true =>
    refine identifier?_bind fun name => ?_
    cases name with
    | none => exact fail_paces _ _
    | some name => exact take_bind fun _ _ => give _

theorem exportNames_paces (n : Nat) (found : List (Text × Option Text)) (enough : l < n) :
    Paces tokens g l 0 (exportNames n found) := by
  induction n generalizing found g l with
  | zero => omega
  | succ n ih =>
    refine identifier?_bind fun name => ?_
    cases name with
    | none => exact fail_paces _ _
    | some name =>
      refine take_bind fun taken r => ?_
      obtain ⟨token, namePos⟩ := r
      refine (use_paces name).bind fun _ _ => (optionalAlias_paces _).bind fun _ asName => ?_
      dsimp only
      split
      · exact failed (fun _ => failAt_paces _ _ _) _
      · refine accept_bind _ fun comma _ => ?_
        cases comma with
        | true => exact ih _ (by omega)
        | false => exact give _

theorem functionParams_paces (function : Text) (n : Nat) (params : List Text) (enough : l < n) :
    Paces tokens g l 0 (functionParams function n params) := by
  induction n generalizing params g l with
  | zero => omega
  | succ n ih =>
    refine accept_bind _ fun found _ => ?_
    cases found with
    | true => exact give _
    | false =>
      refine identifier?_bind fun name => ?_
      cases name with
      | none => exact failUnlessLexed_paces _ _
      | some param =>
        refine take_bind fun _ r => ?_
        obtain ⟨token, paramPos⟩ := r
        dsimp only
        split
        · exact failed (fun _ => failAt_paces _ _ _) _
        · exact separator_paces _ (fail_paces _ _) fun l' _ => ih _ (by omega)

theorem loopControl_paces (word : Text) (stmt : Position → Stmt) :
    Paces tokens 1 l 1 (loopControl word stmt) := by
  refine currentPos_bind fun pos => get_bind fun s => ?_
  dsimp only
  split
  · exact failed (fun _ => failAt_paces _ _ _) _
  · exact advance_paces.bind fun _ _ => give _

section Statements

variable {rules : Rules} (pace : rules.Pace tokens levels) (settings : Settings)
include pace

theorem blockStatements_paces (n : Nat) (found : List Stmt) (enough : l < n)
    (room : 2 * l + 2 ≤ levels) : Paces tokens g l 0 (blockStatements rules n found) := by
  induction n generalizing found g l with
  | zero => omega
  | succ n ih =>
    refine check_bind _ fun closes => ?_
    cases closes with
    | true => exact give _
    | false =>
      refine atEnd_bind fun ended => ?_
      cases ended with
      | true => exact failed (fun _ => fail_paces _ _) _
      | false =>
        refine (pace.statement l room).ended _ (fun stmt l' _ => ?_) fun some stmt => ?_
        · exact give _
        · exact ih _ (by omega) (by omega)

theorem block_paces (room : 2 * l ≤ levels) : Paces tokens 0 l 1 (block settings rules) := by
  refine nested_paces ?_ settings
  refine currentPos_bind fun pos => (expect_paces _ _).bind fun taken _ => ?_
  have body : Paces tokens 0 (l - 1) 0 (inScope do
      let body ← blockStatements rules ((← remaining) + 1) []
      expect .rightBrace (Text.lit "Expecting '\x7d' to end this statement block")
      return body) := by
    refine inScope_paces (remaining_bind fun n less => ?_)
    refine (blockStatements_paces pace _ _ (by omega) (by omega)).bind fun _ body => ?_
    exact ((expect_paces _ _).bind fun _ _ => give body)
  exact body.bind fun _ _ => give _

theorem blockExpr_paces (room : 2 * l ≤ levels) : Paces tokens 0 l 1 (blockExpr settings rules) :=
  (block_paces pace settings room).bind fun _ _ => give _

theorem branch_paces (room : 2 * l ≤ levels) : Paces tokens 1 l 1 (branch settings rules) := by
  refine advance_paces.bind fun taken r => ?_
  obtain ⟨token, pos⟩ := r
  refine (expression_paces pace settings (by omega)).bind fun _ condition => ?_
  refine (blockExpr_paces pace settings (by omega)).bind fun _ yes => ?_
  refine accept_bind _ fun more _ => ?_
  cases more with
  | false => exact give _
  | true =>
    refine check_bind _ fun again => ?_
    cases again with
    | true => exact (pace.branch _ (by omega)).bind fun _ _ => give _
    | false => exact (blockExpr_paces pace settings (by omega)).bind fun _ _ => give _

theorem optionalValue_paces (room : 2 * l + 1 ≤ levels) :
    Paces tokens g l 0 (optionalValue settings rules) := by
  have read : ∀ found : Bool, Paces tokens 0 l 0
      (if found = true then return none else return some (← expression settings rules)) := by
    intro found
    split
    · exact give none
    · exact (expression_paces pace settings room).bind fun _ _ => give _
  unfold optionalValue
  refine check_bind _ fun first => check_bind _ fun second => atEnd_bind fun third => ?_
  exact (read _).anywhere

theorem expressionStatement_paces (room : 2 * l + 1 ≤ levels) :
    Paces tokens 0 l 1 (expressionStatement settings rules) := by
  refine currentPos_bind fun pos => (expression_paces pace settings room).bind fun taken e => ?_
  refine current_bind fun token => ?_
  split
  · dsimp only
    split
    · exact give _
    · refine currentPos_bind fun opPos => ?_
      split
      · exact failed (fun _ => failAt_paces _ _ _) _
      · refine take_bind fun _ _ => ?_
        exact (expression_paces pace settings (by omega)).bind fun _ _ => give _
  · exact give _

theorem declaration_paces (isConst : Bool) (room : 2 * l + 1 ≤ levels) :
    Paces tokens 1 l 1 (declaration settings rules isConst) := by
  refine advance_paces.bind fun taken r => identifier?_bind fun name => ?_
  obtain ⟨token, pos⟩ := r
  cases name with
  | none => exact failUnlessLexed_paces _ _
  | some name =>
    refine take_bind fun _ _ => accept_bind _ fun given _ => ?_
    have rest : ∀ (value : Option Expr) (l' : Nat), Paces tokens 0 l' 0 (do
        declare name
        return Stmt.declare pos isConst name value) :=
      fun value l' => (declare_paces name).bind fun _ _ => give _
    cases given with
    | false => exact rest none _
    | true =>
      exact ((expression_paces pace settings (by omega)).map some).bind fun _ value => rest value _

theorem importStatement_paces (room : 2 * l + 1 ≤ levels) :
    Paces tokens 1 l 1 (importStatement settings rules) := by
  refine advance_paces.bind fun taken _ => ?_
  refine (expression_paces pace settings (by omega)).bind fun _ target => ?_
  exact (optionalAlias_paces _).bind fun _ _ => give _

theorem whileStatement_paces (room : 2 * l + 1 ≤ levels) :
    Paces tokens 1 l 1 (whileStatement settings rules) := by
  refine advance_paces.bind fun taken _ => ?_
  refine (expression_paces pace settings (by omega)).bind fun _ condition => ?_
  exact (inLoop_paces (blockExpr_paces pace settings (by omega))).bind fun _ _ => give _

theorem loopStatement_paces (room : 2 * l + 1 ≤ levels) :
    Paces tokens 1 l 1 (loopStatement settings rules) := by
  refine advance_paces.bind fun taken _ => ?_
  exact (inLoop_paces (blockExpr_paces pace settings (by omega))).bind fun _ _ => give _

theorem forStatement_paces (room : 2 * l + 1 ≤ levels) :
    Paces tokens 1 l 1 (forStatement settings rules) := by
  refine advance_paces.bind fun taken r => identifier?_bind fun name => ?_
  cases name with
  | none => exact fail_paces _ _
  | some name =>
    refine take_bind fun _ _ => (expect_paces _ _).bind fun _ _ => ?_
    refine (expression_paces pace settings (by omega)).bind fun _ items => ?_
    have body : ∀ l', 2 * l' ≤ levels → Paces tokens 0 l' 0 (inScope do
        declare name
        inLoop (blockExpr settings rules)) := by
      intro l' room
      refine inScope_paces ((declare_paces name).bind fun _ _ => ?_)
      exact (inLoop_paces (blockExpr_paces pace settings (by omega))).weaken (Nat.le_refl _)
        (Nat.le_refl _) (Nat.zero_le _)
    exact (body _ (by omega)).bind fun _ _ => give _

theorem functionDefinition_paces (access : Access) (room : 2 * l + 1 ≤ levels) :
    Paces tokens 1 l 1 (functionDefinition settings rules access) := by
  refine advance_paces.bind fun _ r => ?_
  obtain ⟨token, pos⟩ := r
  refine functionName_bind fun name own => take_bind fun _ _ => ?_
  refine accept_bind _ fun opened _ => ?_
  cases opened with
  | false => exact failed (fun _ => fail_paces _ _) _
  | true =>
    refine remaining_bind fun n less => ?_
    refine (functionParams_paces name _ _ (by omega)).bind fun _ params => get_bind fun s => ?_
    dsimp only
    split
    · exact failed (fun _ => failAt_paces _ _ _) _
    · refine check_bind _ fun braced => ?_
      cases braced with
      | false => exact failed (fun _ => fail_paces _ _) _
      | true =>
        refine ((inBody_paces (block_paces pace settings (by omega)) _).bind fun _ r => ?_).anywhere
        obtain ⟨⟨bodyPos, body⟩, inner⟩ := r
        exact define_paces own

theorem definition_paces (isGlobal : Bool) (room : 2 * l + 1 ≤ levels) :
    Paces tokens 1 l 1 (definition settings rules isGlobal) := by
  unfold definition
  dsimp only
  split
  · exact failed (fun _ => fail_paces _ _) _
  · refine accept_else_bind _ (fun some => ?_) ?_
    · refine check_bind _ fun follows => ?_
      cases follows with
      | false => exact failed (fun _ => fail_paces _ _) _
      | true =>
        exact (functionDefinition_paces pace settings .hidden (by omega)).weaken (Nat.le_refl _)
          (Nat.le_refl _) (Nat.zero_le _)
    · exact functionDefinition_paces pace settings .exposed room

/-- Every statement but the empty one takes a token. -/
theorem statement_opens (isGlobal : Bool) (room : 2 * l + 1 ≤ levels) :
    Opens tokens l (statement settings rules isGlobal) := by
  intro s within most
  have opens : ∀ {p : Parse (Option Stmt)}, Paces tokens s.current.1.count l 1 p →
      Paced tokens s (fun t => t.rest.length + 1 ≤ s.rest.length ∨
        t = s ∧ s.current.1 = .symbol .semicolon) (p s) :=
    fun h => (h s within (Nat.le_refl _) most).imp fun _ taken => .inl taken
  have looked : statement settings rules isGlobal s = _ :=
    (bind_of_ok (currentPos_ok s) _).trans
      (bind_of_ok (current_ok s) _)
  rw [looked]
  generalize s.current.1 = token at opens ⊢
  have value : ∀ f : Option Expr → Stmt, Paces tokens 1 l 1 (advance >>= fun _ => do
      return some (f (← optionalValue settings rules))) := by
    intro f
    refine advance_paces.bind fun _ _ => ?_
    exact (optionalValue_paces pace settings (by omega)).bind fun _ _ => give _
  split
  · exact ⟨.refl s, .inr ⟨rfl, rfl⟩⟩
  · exact opens ((blockExpr_paces pace settings (by omega)).bind fun _ _ => give _).anywhere
  · exact opens ((branch_paces pace settings (by omega)).bind fun _ _ => give _)
  · exact opens ((whileStatement_paces pace settings room).map some)
  · exact opens ((loopStatement_paces pace settings room).map some)
  · exact opens ((forStatement_paces pace settings room).map some)
  · exact opens ((loopControl_paces _ _).map some)
  · exact opens ((loopControl_paces _ _).map some)
  · exact opens (value _)
  · exact opens (value _)
  · exact opens ((declaration_paces pace settings false room).map some)
  · exact opens ((declaration_paces pace settings true room).map some)
  · exact opens ((importStatement_paces pace settings room).map some)
  · have names : Paces tokens 1 l 1 exportStatement := by
      refine advance_paces.bind fun _ _ => remaining_bind fun n _ => ?_
      exact (exportNames_paces _ _ (by omega)).bind fun _ _ => give _
    refine opens ?_
    dsimp only
    split
    · exact failed (fun _ => fail_paces _ _) _
    · exact names.map some
  · exact opens ((definition_paces pace settings isGlobal room).bind fun _ _ => give none)
  · exact opens ((definition_paces pace settings isGlobal room).bind fun _ _ => give none)
  · exact opens ((expressionStatement_paces pace settings room).map some).anywhere

theorem topStatements_paces (n : Nat) (found : List Stmt) (enough : l < n)
    (room : 2 * l + 1 ≤ levels) : Paces tokens g l 0 (topStatements settings rules n found) := by
  induction n generalizing found g l with
  | zero => omega
  | succ n ih =>
    refine atEnd_bind fun ended => ?_
    cases ended with
    | true => exact give _
    | false =>
      refine (statement_opens pace settings true room).ended _ (fun stmt l' _ => ?_) fun some stmt => ?_
      · exact give _
      · exact ih _ (by omega) (by omega)

end Statements

theorem rulesAt_pace (settings : Settings) (n : Nat) : (rulesAt settings n).Pace tokens n := by
  induction n with
  | zero => constructor <;> omega
  | succ n ih =>
    constructor
    · exact fun l room => expression_paces ih settings (by omega)
    · exact fun l room => unary_paces ih settings (by omega)
    · exact fun l room => statement_opens ih settings false (by omega)
    · exact fun l room => block_paces ih settings (by omega)
    · exact fun l room => branch_paces ih settings (by omega)

theorem singleExpression_paces (settings : Settings) {tokens : List PlacedToken} {l : Nat} :
    Paces tokens 0 l 0 (singleExpression settings) := by
  refine currentPos_bind fun pos => remaining_bind fun n _ => ?_
  refine (expression_paces (rulesAt_pace settings _) settings ?_).bind fun _ e => ?_
  · unfold nestingBound
    omega
  · refine atEnd_bind fun ended => ?_
    cases ended with
    | true => exact get_bind fun _ => give _
    | false => exact failed (fun _ => unexpected_paces) _

theorem script_paces (settings : Settings) {tokens : List PlacedToken} {l : Nat} :
    Paces tokens 0 l 0 (script settings) := by
  refine remaining_bind fun n _ => ?_
  refine (topStatements_paces (rulesAt_pace settings _) settings _ _ (Nat.lt_succ_self _) ?_).bind
    fun _ _ => get_bind fun _ => give _
  unfold nestingBound
  omega

/-- The state at the start has enough of all bounds, so reading ends with a script or a fault. -/
theorem parse_paced (settings : Settings) (asExpression : Bool) (tokens : List PlacedToken)
    (nextClosure : Nat) : Paced (State.start tokens nextClosure).rest (State.start tokens nextClosure)
      (fun t => t.rest.length ≤ (State.start tokens nextClosure).rest.length)
      ((if asExpression then singleExpression settings else script settings)
        (State.start tokens nextClosure)) := by
  have within := List.suffix_refl (State.start tokens nextClosure).rest
  split
  · exact singleExpression_paces settings _ within (Nat.zero_le _) (Nat.le_refl _)
  · exact script_paces settings _ within (Nat.zero_le _) (Nat.le_refl _)

end Scripting.Grammar

namespace Scripting

open Grammar

/-- A script is accepted or refused; the bounds of the parser are never used up. -/
theorem Engine.compile_settles (engine : Engine) (asExpression : Bool) (pieces : List Text)
    (nextClosure : Nat) : (engine.compile asExpression pieces nextClosure).1 ≠ .error .exhausted := by
  have paced := parse_paced (engine.settings asExpression) asExpression
    (engine.dialect.tokens pieces) nextClosure
  unfold Engine.compile parse
  dsimp only
  split
  · simp
  · next stop s eq =>
    rw [eq] at paced
    simpa using paced.1

theorem Engine.compile_next (engine : Engine) (asExpression : Bool) (pieces : List Text)
    (nextClosure : Nat) : nextClosure ≤ (engine.compile asExpression pieces nextClosure).2 := by
  have paced := parse_paced (engine.settings asExpression) asExpression
    (engine.dialect.tokens pieces) nextClosure
  unfold Engine.compile parse
  dsimp only
  split
  · next script s eq =>
    rw [eq] at paced
    exact paced.1.nextClosure
  · next stop s eq =>
    rw [eq] at paced
    exact paced.2.nextClosure

/-- The functions of the closures of a script go by numbers of their own, in a range that belongs to
this script. -/
structure Script.Numbered (first next : Nat) (script : Script) : Prop where
  numbers : ∀ f ∈ script.functions, ∀ id, f.2.name = closureName id → first ≤ id ∧ id < next
  once : ∀ f ∈ script.functions, ∀ g ∈ script.functions, ∀ id, f.2.name = closureName id →
    g.2.name = closureName id → f = g
  keys : ∀ f ∈ script.functions, f.1 = f.2.key

theorem Engine.compile_numbered {engine : Engine} {asExpression : Bool} {pieces : List Text}
    {nextClosure next : Nat} {script : Script}
    (compiled : engine.compile asExpression pieces nextClosure = (.ok script, next))
    (unmarked : Unmarked (engine.dialect.tokens pieces)) : script.Numbered nextClosure next := by
  have paced := parse_paced (engine.settings asExpression) asExpression
    (engine.dialect.tokens pieces) nextClosure
  have clear : Unmarked (State.start (engine.dialect.tokens pieces) nextClosure).rest :=
    fun token there => unmarked token (List.takeWhile_subset _ there)
  have start := State.numbered_start (engine.dialect.tokens pieces) nextClosure
  unfold Engine.compile parse at compiled
  dsimp only at compiled
  split at compiled
  · next made t eq =>
    cases compiled
    rw [eq] at paced
    obtain ⟨-, -, numbers, once, keys⟩ := paced.1.numbered clear nextClosure start
    have functions : t.functions = script.functions := by
      cases asExpression with
      | true => exact singleExpression_functions eq
      | false => exact script_functions eq
    rw [functions] at numbers once keys
    exact ⟨numbers, once, keys⟩
  · cases compiled

end Scripting
