import Scripting.Engine
import Scripting.Proofs.Parsing.Strings
import Scripting.Proofs.Precedence
import Scripting.Proofs.Spelling

/-
Operators of a host, from the engine that accepts their names over the dialect that recognises them to
the grammar that makes calls of them.
-/
namespace Scripting

/-! ### Scripts without quotes -/

def ScanState.limited (state : ScanState) (limit : Nat) : ScanState := { state with maxString := limit }

namespace Scan

def Unquoted (input : List CodePoint) : Prop := doubleQuote ∉ input ∧ singleQuote ∉ input

def Step.limited (step : Step) (limit : Nat) : Step :=
  { step with state := step.state.limited limit }

theorem Unquoted.of_suffix {input rest : List CodePoint} (h : Unquoted input) (suffix : rest <:+ input) :
    Unquoted rest :=
  ⟨fun mem => h.1 (suffix.subset mem), fun mem => h.2 (suffix.subset mem)⟩

theorem nextFrom_limited {input : List CodePoint} (unquoted : Unquoted input) (state : ScanState)
    (limit : Nat) (pos : Position) :
    nextFrom (state.limited limit) pos input = (nextFrom state pos input).limited limit := by
  have tail (c : CodePoint) (rest : List CodePoint) : rest.tail <:+ c :: rest :=
    (List.tail_suffix rest).trans (List.suffix_cons _ _)
  fun_induction nextFrom state pos input with
  | case1 state pos =>
    rw [nextFrom]
    rfl
  | case2 state pos rest start ih =>
    rw [nextFrom, if_pos rfl]
    exact ih (unquoted.of_suffix (List.suffix_cons _ _))
  | case3 state pos c rest start newline digit =>
    rw [nextFrom, if_neg newline, if_pos digit]
    rfl
  | case4 state pos c rest start newline digit word =>
    rw [nextFrom, if_neg newline, if_neg digit, if_pos word]
    rfl
  | case5 state pos rest => exact absurd List.mem_cons_self unquoted.1
  | case6 state pos rest => exact absurd List.mem_cons_self unquoted.2
  | case7 state pos c rest start newline digit word double single blank ih =>
    rw [nextFrom, if_neg newline, if_neg digit, if_neg word, if_neg double, if_neg single, if_pos blank]
    exact ih (unquoted.of_suffix (List.suffix_cons _ _))
  | case8 state pos c rest start newline digit word double single blank negative =>
    rw [nextFrom, if_neg newline, if_neg digit, if_neg word, if_neg double, if_neg single, if_neg blank]
    exact if_pos negative
  | case9 state pos c rest start newline digit word double single blank negative line comment keep =>
    rw [nextFrom, if_neg newline, if_neg digit, if_neg word, if_neg double, if_neg single, if_neg blank]
    exact (if_neg negative).trans ((if_pos line).trans (if_pos keep))
  | case10 state pos c rest start newline digit word double single blank negative line comment skip ih =>
    rw [nextFrom, if_neg newline, if_neg digit, if_neg word, if_neg double, if_neg single, if_neg blank]
    refine (if_neg negative).trans ((if_pos line).trans ((if_neg skip).trans ?_))
    exact ih (unquoted.of_suffix ((lineComment_rest_suffix _ _ _).trans (tail c rest)))
  | case11 state pos c rest start newline digit word double single blank negative line block comment
      state' keep =>
    rw [nextFrom, if_neg newline, if_neg digit, if_neg word, if_neg double, if_neg single, if_neg blank]
    exact (if_neg negative).trans ((if_neg line).trans ((if_pos block).trans (if_pos keep)))
  | case12 state pos c rest start newline digit word double single blank negative line block comment
      state' skip ih =>
    rw [nextFrom, if_neg newline, if_neg digit, if_neg word, if_neg double, if_neg single, if_neg blank]
    refine (if_neg negative).trans ((if_neg line).trans ((if_pos block).trans ((if_neg skip).trans ?_)))
    exact ih (unquoted.of_suffix ((blockComment_rest_suffix _ _ _ _).trans (tail c rest)))
  | case13 state pos c rest start newline digit word double single blank negative line block =>
    rw [nextFrom, if_neg newline, if_neg digit, if_neg word, if_neg double, if_neg single, if_neg blank]
    refine (if_neg negative).trans ((if_neg line).trans ((if_neg block).trans ?_))
    unfold signStep
    split <;> rfl

theorem Step.remember_limited (step : Step) (limit : Nat) :
    (step.limited limit).remember = step.remember.limited limit := by
  obtain ⟨token, state, pos, rest⟩ := step
  cases token <;> rfl

theorem next_limited {input : List CodePoint} (unquoted : Unquoted input) (state : ScanState)
    (limit : Nat) (pos : Position) :
    next (state.limited limit) pos input = (next state pos input).limited limit := by
  unfold next
  by_cases outside : state.commentLevel = 0
  · rw [if_pos (show (state.limited limit).commentLevel = 0 from outside), if_pos outside,
      nextFrom_limited unquoted, Step.remember_limited]
  · rw [if_neg (show ¬ (state.limited limit).commentLevel = 0 from outside), if_neg outside]
    have behind := unquoted.of_suffix (blockComment_rest_suffix state.commentLevel [] pos input)
    rw [← Step.remember_limited]
    refine congrArg Step.remember ?_
    let inside : ScanState :=
      { state with commentLevel := (blockComment state.commentLevel [] pos input).level }
    cases keep : state.keepComments with
    | true =>
      simp only [ScanState.limited, keep, if_true]
      rfl
    | false =>
      simp only [ScanState.limited, keep, Bool.false_eq_true, if_false]
      have same := nextFrom_limited behind inside limit
        (blockComment state.commentLevel [] pos input).pos
      simp only [inside, ScanState.limited, keep] at same
      exact same

end Scan

namespace Dialect

open Scan

def unlimited (d : Dialect) : Dialect := { d with maxString := 0 }

theorem take_limited (d : Dialect) (cap limit : Nat) {input : List CodePoint} (unquoted : Unquoted input)
    (state : ScanState) (pos : Position) :
    d.take cap (state.limited limit) pos input = d.unlimited.take cap state pos input := by
  induction cap generalizing state pos input with
  | zero => rfl
  | succ cap ih =>
    have step : (Scan.next state pos input).Gives state.maxString input := Scan.next_gives rfl pos input
    have behind := unquoted.of_suffix step.rest
    have read : d.next (state.limited limit) pos input =
        (d.unlimited.next state pos input).limited limit := by
      unfold next
      rw [next_limited unquoted]
      rfl
    unfold take
    rw [read]
    dsimp only [Step.limited]
    split
    · rfl
    · split
      · rfl
      · exact congrArg _ (ih behind _ _)

theorem tokens_unlimited (d : Dialect) {pieces : List Text} (unquoted : Unquoted (codePoints pieces)) :
    d.tokens pieces = d.unlimited.tokens pieces :=
  d.take_limited _ d.maxString unquoted d.unlimited.initial Position.start

end Dialect

/-! ### Registration and recognition -/

namespace Engine

/-- An operator that a host has added is in the table with its precedence, and no word or sign that is
in use has been taken for it. -/
theorem addOperator_cases {engine e : Engine} {name : Text} {precedence : Nat}
    (added : engine.addOperator name precedence = .ok e) :
    e = { engine with operators := engine.operators.insert name (precedence % 256) } ∧
      (∀ s, Token.ofText? name = some (.symbol s) → engine.disabled.contains name = true) ∧
      ∀ t, Token.ofText? name = some (.reserved t) → t.isIdentifier = true := by
  unfold addOperator at added
  cases fault : engine.operatorFault? name with
  | some detail =>
    rw [fault] at added
    cases added
  | none =>
    rw [fault] at added
    cases added
    unfold operatorFault? at fault
    split at fault
    · cases fault
    · refine ⟨rfl, fun s symbol => ?_, fun t reserved => ?_⟩
      · rw [symbol] at fault
        by_contra enabled
        simp only [if_neg enabled] at fault
        split at fault <;> cases fault
      · rw [reserved] at fault
        by_contra sign
        simp only [if_neg sign] at fault
        cases fault

end Engine

/-! ### Words and signs of names -/

namespace Text

theorem Plain.append {t u : Text} (ht : t.Plain) (hu : u.Plain) : (t ++ u).Plain := fun b hb =>
  (List.mem_append.mp hb).elim (ht b) (hu b)

theorem Plain.unquoted {t : Text} (h : t.Plain) : Scan.Unquoted (Scan.wide t) := by
  have other {q : UInt8} (quoted : q = 34 ∨ q = 39) : q.toUInt32 ∉ Scan.wide t := by
    intro mem
    obtain ⟨b, hb, same⟩ := List.mem_map.mp mem
    have byte : b = q := by
      rw [← UInt32.toNat_inj] at same
      exact UInt8.toNat_inj.mp (by simpa using same)
    exact quoted.elim (fun double => (h b hb).2.1 (byte.trans double))
      fun single => (h b hb).2.2 (byte.trans single)
  exact ⟨other (.inl rfl), other (.inr rfl)⟩

end Text

namespace Token

theorem ofText?_symbol {name : Text} {s : Symbol} (h : ofText? name = some (symbol s)) :
    Symbol.ofText? name = some s := by
  unfold ofText? at h
  cases found : Symbol.ofText? name with
  | some other =>
    rw [found] at h
    cases h
    rfl
  | none =>
    rw [found] at h
    dsimp only at h
    split at h <;> cases h

theorem ofText?_cases (name : Text) : ofText? name = none ∨ ofText? name = some (reserved name) ∨
    ∃ s ∈ Symbol.spelled, name = s.text ∧ ofText? name = some (symbol s) := by
  unfold ofText?
  cases found : Symbol.ofText? name with
  | some s =>
    have spelled : s.text = name := by simpa using List.find?_some found
    exact .inr (.inr ⟨s, List.mem_of_find?_eq_some found, spelled.symm, rfl⟩)
  | none =>
    dsimp only
    split
    · exact .inr (.inl rfl)
    · exact .inl rfl

end Token

namespace Grammar

section Application

variable {settings : Settings} {rules : Rules} {s : State} {more : List PlacedToken} {name : Text}

theorem unary_variable (shallow : s.depth = 0) {pos : Position}
    (here : s.rest = (.identifier name, pos) :: more)
    (alone : ∀ symbol, (State.current { s with rest := more }).1 ≠ .symbol symbol) :
    unary settings rules s = .ok (.var pos name []) { s with rest := more, body := s.body.use name } := by
  obtain ⟨rest, endPos, body, outer, depth, functions, nextClosure⟩ := s
  cases here
  cases shallow
  have free : ¬ (0 < settings.maxDepth ∧ settings.maxDepth ≤ 0) := by omega
  unfold unary nested
  change (if 0 < settings.maxDepth ∧ settings.maxDepth ≤ 0 then _ else _ : Parse Expr) _ = _
  rw [if_neg free]
  cases more with
  | nil => rfl
  | cons e more =>
    obtain ⟨token, tokenPos⟩ := e
    cases token with
    | symbol symbol => exact absurd rfl (alone symbol)
    | _ => rfl

/-! A script of a single expression that starts with a name. -/

theorem parse_of_ok {asExpression : Bool} {tokens : List PlacedToken} {next : Nat} {made : Script} {t : State}
    (h : (if asExpression then singleExpression settings else script settings)
      (State.start tokens next) = .ok made t) :
    parse settings asExpression tokens next = (.ok made, t.nextClosure) := by
  unfold parse
  dsimp only
  rw [h]

theorem parse_of_error {asExpression : Bool} {tokens : List PlacedToken} {next : Nat} {stop : Stop} {t : State}
    (h : (if asExpression then singleExpression settings else script settings)
      (State.start tokens next) = .error stop t) :
    parse settings asExpression tokens next = (.error stop, t.nextClosure) := by
  unfold parse
  dsimp only
  rw [h]

theorem unexpected_fault {α : Type} {fault : LexError} {pos : Position} (stuck : s.current = (.fault fault, pos)) :
    (unexpected : Parse α) s = .error (.fault ⟨.parsing (some .badInput) fault.message, pos⟩) s := by
  unfold unexpected
  rw [bind_of_ok (get_ok s), stuck]
  rfl

theorem statementEnd_fault {fault : LexError} {pos : Position} (stuck : s.current = (.fault fault, pos))
    {stmt : Stmt} (unclosed : stmt.endsInBlock = false) :
    statementEnd (some stmt) none s =
      .error (.fault ⟨.parsing (some .badInput) fault.message, pos⟩) s := by
  have goesOn : closed none s = .ok false s := by
    unfold closed
    rw [bind_of_ok (atEnd_ok s), stuck]
    rfl
  have unseparated : accept .semicolon s = .ok false s := by
    unfold accept check
    rw [bind_assoc, bind_of_ok (current_ok s), stuck]
    rfl
  unfold statementEnd
  rw [bind_of_ok goesOn]
  refine (bind_of_ok unseparated _).trans ?_
  change (if (some stmt).all (·.endsInBlock) then _ else _ : Parse Bool) s = _
  rw [Option.all_some, unclosed, if_neg Bool.false_ne_true]
  unfold failUnlessLexed
  rw [bind_of_ok (current_ok s), stuck]
  exact unexpected_fault stuck

section Single

variable {s₁ : State} {pos : Position} {tokens : List PlacedToken} {next n : Nat} {e : Expr}
  (here : s.rest = (.identifier name, pos) :: more)
  (ran : expression settings (rulesAt settings n) s = .ok e s₁)
include here

theorem statement_expression : statement settings rules true s =
    (some <$> expressionStatement settings rules : Parse (Option Stmt)) s := by
  have first : s.current = (.identifier name, pos) := by rw [State.current, here]; rfl
  unfold statement
  rw [bind_of_ok (currentPos_ok s), bind_of_ok (current_ok s), first]

include ran

theorem expressionStatement_ok (alone : ∀ symbol, s₁.current.1 ≠ .symbol symbol) :
    expressionStatement settings (rulesAt settings n) s = .ok (.expr pos e) s₁ := by
  have first : s.current = (.identifier name, pos) := by rw [State.current, here]; rfl
  unfold expressionStatement
  rw [bind_of_ok (currentPos_ok s), first, bind_of_ok ran, bind_of_ok (current_ok s₁)]
  cases following : s₁.current.1 with
  | symbol symbol => exact absurd following (alone symbol)
  | _ => rfl

theorem statement_single (alone : ∀ symbol, s₁.current.1 ≠ .symbol symbol) :
    statement settings (rulesAt settings n) true s = .ok (some (.expr pos e)) s₁ :=
  (statement_expression here).trans (bind_of_ok (expressionStatement_ok here ran alone) _)

theorem parse_single (began : State.start tokens next = s) (size : n = nestingBound s.rest.length)
    (ended : s₁.rest = []) (asExpression : Bool) :
    parse settings asExpression tokens next =
      (.ok { statements := [.expr pos e], functions := s₁.functions }, s₁.nextClosure) := by
  subst size
  have alone : s₁.current = (.eof, s₁.endPos) := by rw [State.current, ended]; rfl
  have first : s.current = (.identifier name, pos) := by rw [State.current, here]; rfl
  refine parse_of_ok ?_
  rw [began]
  cases asExpression with
  | false =>
    have statement : statement settings (rulesAt settings (nestingBound s.rest.length)) true s =
        .ok (some (.expr pos e)) s₁ := statement_single here ran (by rw [alone]; rintro symbol ⟨⟩)
    have ends : statementEnd (some (.expr pos e)) none s₁ = .ok true s₁ := by
      unfold statementEnd closed
      rw [bind_assoc, bind_of_ok (atEnd_ok s₁), alone]
      rfl
    have top : topStatements settings (rulesAt settings (nestingBound s.rest.length))
        (s.rest.length + 1) [] s = .ok [.expr pos e] s₁ := by
      unfold topStatements
      rw [bind_of_ok (atEnd_ok s), first]
      exact (bind_of_ok statement _).trans (bind_of_ok ends _)
    show script settings s = _
    exact bind_of_ok top _
  | true =>
    show singleExpression settings s = _
    unfold singleExpression
    rw [bind_of_ok (currentPos_ok s), first, bind_of_ok (remaining_ok s), bind_of_ok ran,
      bind_of_ok (atEnd_ok s₁), alone]
    rfl

theorem parse_faulty (began : State.start tokens next = s) (size : n = nestingBound s.rest.length)
    {fault : LexError} {faultPos : Position} (stuck : s₁.current = (.fault fault, faultPos))
    (unclosed : (Stmt.expr pos e).endsInBlock = false) (asExpression : Bool) :
    parse settings asExpression tokens next =
      (.error (.fault ⟨.parsing (some .badInput) fault.message, faultPos⟩), s₁.nextClosure) := by
  subst size
  have first : s.current = (.identifier name, pos) := by rw [State.current, here]; rfl
  refine parse_of_error ?_
  rw [began]
  cases asExpression with
  | false =>
    have statement : statement settings (rulesAt settings (nestingBound s.rest.length)) true s =
        .ok (some (.expr pos e)) s₁ := statement_single here ran (by rw [stuck]; rintro symbol ⟨⟩)
    have top : topStatements settings (rulesAt settings (nestingBound s.rest.length))
        (s.rest.length + 1) [] s =
          .error (.fault ⟨.parsing (some .badInput) fault.message, faultPos⟩) s₁ := by
      unfold topStatements
      rw [bind_of_ok (atEnd_ok s), first]
      exact (bind_of_ok statement _).trans (bind_of_error (statementEnd_fault stuck unclosed) _)
    show script settings s = _
    exact bind_of_error top _
  | true =>
    show singleExpression settings s = _
    unfold singleExpression
    rw [bind_of_ok (currentPos_ok s), first, bind_of_ok (remaining_ok s), bind_of_ok ran,
      bind_of_ok (atEnd_ok s₁), stuck]
    exact bind_of_error (unexpected_fault stuck) _

end Single

theorem expression_ok {t u : State} {left e : Expr} (first : unary settings rules s = .ok left t)
    (loop : binary settings rules (t.rest.length + 1) 1 left t = .ok e u) :
    expression settings rules s = .ok e u := by
  unfold expression
  rw [bind_of_ok first, bind_of_ok (remaining_ok t), loop]

/-! Two variables with an operator between them. -/

variable {a b : Text} {aPos opPos bPos endPos : Position} {op : Token} {next : Nat}

def applied (a b : Text) (aPos opPos bPos endPos : Position) (op : Token) : List PlacedToken :=
  [(.identifier a, aPos), (op, opPos), (.identifier b, bPos), (.eof, endPos)]

theorem start_applied (goesOn : op.isEof = false) :
    State.start (applied a b aPos opPos bPos endPos op) next =
      { rest := [(.identifier a, aPos), (op, opPos), (.identifier b, bPos)], endPos, nextClosure := next } := by
  cases op with
  | eof => cases goesOn
  | _ => rfl

theorem parse_custom {operator : Text}
    (binds : (Token.custom operator).precedence settings.operators ≠ 0) (asExpression : Bool) :
    parse settings asExpression (applied a b aPos opPos bPos endPos (.custom operator)) next =
      (.ok { statements := [.expr aPos (.call opPos operator [] [.var aPos a [], .var bPos b []] true)] },
        next) := by
  have left : unary settings (rulesAt settings 8)
      { rest := [(.identifier a, aPos), (.custom operator, opPos), (.identifier b, bPos)], endPos
        nextClosure := next } =
      .ok (.var aPos a []) { rest := [(.custom operator, opPos), (.identifier b, bPos)], endPos
                             body := Body.use {} a, nextClosure := next } :=
    unary_variable rfl rfl (by rintro symbol ⟨⟩)
  have right : unaryAt settings 8
      { rest := [(.identifier b, bPos)], endPos, body := Body.use {} a, nextClosure := next } =
      .ok (.var bPos b [])
        { rest := [], endPos, body := (Body.use {} a).use b, nextClosure := next } :=
    unary_variable rfl rfl (by rintro symbol ⟨⟩)
  have both : binary settings (rulesAt settings 8) 3 1 (.var aPos a [])
      { rest := [(.custom operator, opPos), (.identifier b, bPos)], endPos
        body := Body.use {} a, nextClosure := next } =
      .ok (.call opPos operator [] [.var aPos a [], .var bPos b []] true)
        { rest := [], endPos, body := (Body.use {} a).use b, nextClosure := next } := by
    rw [binary_goes 2 _ (show _ = (Token.custom operator, opPos) from rfl) ⟨binds, rfl⟩
      (Nat.one_le_iff_ne_zero.mpr binds) right rfl]
    exact (if_neg (Nat.not_lt_zero _)).trans (binary_stops Nat.one_pos)
  exact parse_single rfl (expression_ok left both) (start_applied rfl) rfl rfl asExpression

theorem parse_fault {fault : LexError} (asExpression : Bool) :
    parse settings asExpression (applied a b aPos opPos bPos endPos (.fault fault)) next =
      (.error (.fault ⟨.parsing (some .badInput) fault.message, opPos⟩), next) := by
  have left : unary settings (rulesAt settings 8)
      { rest := [(.identifier a, aPos), (.fault fault, opPos), (.identifier b, bPos)], endPos
        nextClosure := next } =
      .ok (.var aPos a []) { rest := [(.fault fault, opPos), (.identifier b, bPos)], endPos
                             body := Body.use {} a, nextClosure := next } :=
    unary_variable rfl rfl (by rintro symbol ⟨⟩)
  exact parse_faulty rfl (expression_ok left (binary_stops Nat.one_pos)) (start_applied rfl) rfl rfl rfl asExpression

end Application

end Grammar

namespace Dialect

open Scan

variable {d : Dialect} {name : Text}

/-- What a dialect makes of a name that its host has added as an operator: a sign stays switched off,
and any other name is an operator. -/
def operatorToken (name : Text) : Token :=
  if (Symbol.ofText? name).any (·.isOperator) then .fault { fault := .unexpectedInput, text := name }
  else .custom name

theorem filter_added (custom : d.isCustom name = true)
    (disabled : ∀ s, Token.ofText? name = some (.symbol s) → d.isDisabled name = true) :
    d.filter ((Token.ofText? name).getD (.identifier name)) = operatorToken name := by
  have word (wordless : ∀ s, Token.ofText? name ≠ some (.symbol s)) : operatorToken name = .custom name := by
    cases found : Symbol.ofText? name with
    | none => simp [operatorToken, found]
    | some s => exact absurd (by simp [Token.ofText?, found]) (wordless s)
  rcases Token.ofText?_cases name with none | reserved | ⟨s, spelled, rfl, symbol⟩
  · rw [word (by simp [none]), none]
    exact if_pos custom
  · rw [word (by simp [reserved]), reserved]
    exact if_pos custom
  · have off := disabled s symbol
    rw [symbol]
    simp only [Option.getD_some, filter, filterSymbol, operatorToken, Token.ofText?_symbol symbol, off, custom,
      Option.any_some]
    rfl

theorem gives_name {rest : List CodePoint}
    (proper : name.isIdentifier = true ∨ (Token.ofText? name).isSome)
    (reserved : ∀ t, Token.ofText? name = some (.reserved t) → t.isIdentifier = true)
    (parted : Parted rest) :
    Gives true (wide name ++ rest) ((Token.ofText? name).getD (.identifier name)) rest := by
  have word (identifier : name.isIdentifier = true) :
      Gives true (wide name ++ rest) ((Token.ofText? name).getD (.identifier name)) rest := by
    have read : wordToken name = (Token.ofText? name).getD (.identifier name) := by
      unfold wordToken
      rw [identifier]
      rfl
    exact read ▸ gives_identifier identifier parted
  rcases Token.ofText?_cases name with none | kept | ⟨s, spelled, rfl, symbol⟩
  · exact word (proper.resolve_right (by simp [none]))
  · exact word (reserved name kept)
  · rw [symbol]
    cases keyword : s.isKeyword with
    | true => exact gives_keyword spelled keyword parted
    | false =>
      have same : (Token.symbol s).readAfter (some (.identifier [])) = .symbol s := by
        cases s <;> rfl
      have read : Gives (!(some (Token.identifier [])).all Token.expectsOperand) (wide s.text ++ rest)
          ((Token.symbol s).readAfter (some (.identifier []))) rest := gives_sign spelled keyword parted
      rwa [same] at read

theorem isEof_name (name : Text) : ((Token.ofText? name).getD (.identifier name)).isEof = false := by
  rcases Token.ofText?_cases name with none | reserved | ⟨s, -, -, symbol⟩
  · rw [none]; rfl
  · rw [reserved]; rfl
  · rw [symbol]; rfl

structure IsVariable (d : Dialect) (a : Text) : Prop where
  identifier : a.isIdentifier = true
  unreserved : Token.ofText? a = none
  uncustom : d.isCustom a = false

theorem IsVariable.unlimited {a : Text} (h : d.IsVariable a) : d.unlimited.IsVariable a :=
  ⟨h.identifier, h.unreserved, h.uncustom⟩

theorem lexes_variable {a : Text} (h : d.IsVariable a) {b : Bool} {rest : List CodePoint}
    (parted : Parted rest) : d.Lexes b (wide a ++ rest) [.identifier a] true rest := by
  have word : wordToken a = .identifier a := by
    unfold wordToken
    rw [h.identifier, h.unreserved]
    rfl
  have read := gives_identifier (b := b) h.identifier parted
  rw [word] at read
  exact .one read (if_neg (by rw [h.uncustom]; exact Bool.false_ne_true)) rfl

def application (a name b : Text) : Text := Text.join (Text.lit " ") [a, name, b]

theorem wide_application (a name b : Text) :
    wide (application a name b) = wide a ++ 32 :: (wide name ++ 32 :: wide b) := by
  rw [application, Text.join_space]
  simp [wide]

theorem plain_name (proper : name.isIdentifier = true ∨ (Token.ofText? name).isSome)
    (reserved : ∀ t, Token.ofText? name = some (.reserved t) → t.isIdentifier = true) : name.Plain := by
  rcases Token.ofText?_cases name with none | kept | ⟨s, spelled, rfl, -⟩
  · exact Text.plain_identifier (proper.resolve_right (by simp [none]))
  · exact Text.plain_identifier (reserved name kept)
  · exact Text.plain_symbol spelled

section

variable {a b : Text} (first : d.IsVariable a) (second : d.IsVariable b)
  (proper : name.isIdentifier = true ∨ (Token.ofText? name).isSome)
  (reserved : ∀ t, Token.ofText? name = some (.reserved t) → t.isIdentifier = true)
include first second proper reserved

theorem plain_application : (application a name b).Plain := by
  have named : name.Plain := plain_name proper reserved
  have space : Text.Plain (Text.lit " ") := by
    intro b hb
    obtain rfl : b = 32 := by simpa using (show b ∈ [32] from hb)
    decide
  exact ((Text.plain_identifier first.identifier).append space).append
    ((named.append space).append (Text.plain_identifier second.identifier))

variable (custom : d.isCustom name = true)
  (disabled : ∀ s, Token.ofText? name = some (.symbol s) → d.isDisabled name = true)
include custom disabled

theorem lexes_application : d.unlimited.Lexes false (wide (application a name b))
    [.identifier a, operatorToken name, .identifier b] true [] := by
  rw [wide_application]
  have parted (rest : List CodePoint) : Parted (32 :: rest) := fun c head => by cases head; rfl
  have left : d.unlimited.Lexes false (wide a ++ 32 :: (wide name ++ 32 :: wide b)) [.identifier a] true
      (32 :: (wide name ++ 32 :: wide b)) :=
    lexes_variable first.unlimited (parted _)
  obtain ⟨after, operator⟩ : ∃ after, d.unlimited.Lexes true (wide name ++ 32 :: wide b)
      [operatorToken name] after (32 :: wide b) := by
    rw [← filter_added custom disabled]
    exact ⟨_, .filtered (gives_name proper reserved (parted _)) (isEof_name name)⟩
  have right : d.unlimited.Lexes after (wide b ++ []) [.identifier b] true [] :=
    lexes_variable second.unlimited (fun c none => by cases none)
  rw [List.append_nil] at right
  exact left.trans (operator.blank.trans right.blank)

theorem tokens_application : ∃ aPos opPos bPos endPos, d.tokens [application a name b] =
    Grammar.applied a b aPos opPos bPos endPos (operatorToken name) := by
  have plain : (application a name b).Plain := plain_application first second proper reserved
  have unquoted : Scan.Unquoted (codePoints [application a name b]) := by
    rw [codePoints_wide plain.ascii]
    exact plain.unquoted
  -- No limit of string literals matters where there are none.
  have unlimited : d.tokens [application a name b] = d.unlimited.tokens [application a name b] :=
    d.tokens_unlimited unquoted
  obtain ⟨placed, endPos, names, read⟩ := tokens_of_lexes rfl
    (lexes_application first second proper reserved custom disabled) (small_wide _)
  rw [Text.encodeAll_wide plain.ascii] at read
  rw [unlimited, read]
  obtain ⟨⟨_, aPos⟩, _, rfl, rfl, behind⟩ := List.map_eq_cons_iff.mp names
  obtain ⟨⟨_, opPos⟩, _, rfl, op, last⟩ := List.map_eq_cons_iff.mp behind
  obtain ⟨⟨_, bPos⟩, _, rfl, rfl, none⟩ := List.map_eq_cons_iff.mp last
  obtain rfl := List.map_eq_nil_iff.mp none
  rw [← op]
  exact ⟨aPos, opPos, bPos, endPos, rfl⟩

end

end Dialect

/-- An accepted operator of the host is used where it stands: a script that puts its name between two
variables is the call of the function of this name with both, as an operator of the precedence it was
added with. The one exception is a sign of the language. It is accepted once it is switched off, but in
the script it stays the fault of a sign that is switched off. -/
theorem added_operator_is_called (engine e : Engine) (name : Text) (p : UInt8)
    (proper : name.isIdentifier = true ∨ (Token.ofText? name).isSome)
    (added : engine.addOperator name p.toNat = .ok e) (binds : 0 < p) (a b : Text)
    (first : e.dialect.IsVariable a) (second : e.dialect.IsVariable b) (asExpression : Bool)
    (nextClosure : Nat) :
    (Token.custom name).precedence e.operators = p.toNat ∧
    ∃ aPos opPos bPos endPos,
      e.dialect.tokens [Dialect.application a name b] =
        Grammar.applied a b aPos opPos bPos endPos (Dialect.operatorToken name) ∧
      e.compile asExpression [Dialect.application a name b] nextClosure =
        (if (Symbol.ofText? name).any (·.isOperator) then
          .error (.fault ⟨.parsing (some .badInput) (Text.lit "Unexpected " ++ Text.inTicks name), opPos⟩)
        else .ok { statements :=
          [.expr aPos (.call opPos name [] [.var aPos a [], .var bPos b []] true)] }, nextClosure) := by
  obtain ⟨rfl, disabled, reserved⟩ := Engine.addOperator_cases added
  have small : p.toNat % 256 = p.toNat := Nat.mod_eq_of_lt p.toNat_lt
  have found : (engine.operators.insert name (p.toNat % 256)).find? name = some p.toNat := by
    rw [Dict.find?_insert_self, small]
  have precedence : (Token.custom name).precedence (engine.operators.insert name (p.toNat % 256)) =
      p.toNat := by
    rw [Token.precedence, found]
    rfl
  have custom : (engine.operators.insert name (p.toNat % 256)).contains name = true := by
    rw [Dict.contains, found]
    rfl
  obtain ⟨aPos, opPos, bPos, endPos, read⟩ :=
    Dialect.tokens_application first second proper reserved custom disabled
  refine ⟨precedence, aPos, opPos, bPos, endPos, read, ?_⟩
  unfold Engine.compile
  rw [read]
  unfold Dialect.operatorToken
  split
  · exact Grammar.parse_fault asExpression
  · refine Grammar.parse_custom ?_ asExpression
    have positive : p.toNat ≠ 0 := Nat.ne_of_gt (UInt8.lt_iff_toNat_lt.mp binds)
    rwa [← precedence] at positive

/-- An engine whose host has switched a word or a sign off and has added it as an operator. -/
def reusing (name : String) (precedence : Nat) : Engine :=
  { Engine.raw with disabled := [Text.lit name], operators := [(Text.lit name, precedence)] }

/-- A keyword that is switched off can be an operator: `x let y`. -/
theorem added_operator_is_called_let :
    (Engine.raw.disable (Text.lit "let")).addOperator (Text.lit "let") (7 : UInt8).toNat = .ok (reusing "let" 7) ∧
    ((Text.lit "let").isIdentifier = true ∨ (Token.ofText? (Text.lit "let")).isSome) ∧ (0 : UInt8) < 7 ∧
    (reusing "let" 7).dialect.IsVariable (Text.lit "x") ∧
    (reusing "let" 7).dialect.IsVariable (Text.lit "y") ∧
    ∃ aPos opPos bPos, (reusing "let" 7).compile false [Text.lit "x let y"] 0 =
      (.ok { statements := [.expr aPos (.call opPos (Text.lit "let") []
        [.var aPos (Text.lit "x") [], .var bPos (Text.lit "y") []] true)] }, 0) := by
  have proper : (Text.lit "let").isIdentifier = true ∨ (Token.ofText? (Text.lit "let")).isSome :=
    .inl (by with_unfolding_all rfl)
  have added : (Engine.raw.disable (Text.lit "let")).addOperator (Text.lit "let") (7 : UInt8).toNat =
      .ok (reusing "let" 7) := by rfl
  have x : (reusing "let" 7).dialect.IsVariable (Text.lit "x") := ⟨by with_unfolding_all rfl, by rfl, by rfl⟩
  have y : (reusing "let" 7).dialect.IsVariable (Text.lit "y") := ⟨by with_unfolding_all rfl, by rfl, by rfl⟩
  obtain ⟨-, aPos, opPos, bPos, endPos, -, compiled⟩ :=
    added_operator_is_called _ _ _ 7 proper added (by decide) _ _ x y false 0
  have word : (Symbol.ofText? (Text.lit "let")).any (·.isOperator) = false := by rfl
  rw [word] at compiled
  exact ⟨added, proper, by decide, x, y, aPos, opPos, bPos, compiled⟩

/-- The sign `+` is accepted as an operator once it is switched off, and yet `a + b` is a fault. -/
theorem added_sign_is_a_fault :
    (Engine.raw.disable (Text.lit "+")).addOperator (Text.lit "+") 150 = .ok (reusing "+" 150) ∧
    (reusing "+" 150).compile false [Text.lit "a + b"] 0 =
      (.error (.fault ⟨.parsing (some .badInput) (Text.lit "Unexpected '+'"), ⟨1, 3⟩⟩), 0) :=
  ⟨by rfl, by with_unfolding_all rfl⟩

end Scripting
