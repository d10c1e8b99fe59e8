import Scripting.Proofs.Parsing.State
import Scripting.Proofs.Consumption

/-
What a failed parse reports. Where the next token is a fault in the characters of the script, it is
this fault that is reported, by most rules: a missing or wrong token is reported only after a look at
the next one. Some errors are about tokens that have been taken, and some rules do not look.
-/
namespace Scripting.Grammar

def lexicalError (fault : LexError) (pos : Position) : Error :=
  ⟨.parsing (some .badInput) fault.message, pos⟩

/-- Errors about tokens that have been taken: something is there twice, or an index is a literal that is
no index. -/
inductive AboutTaken : ParseFault → Text → Prop where
  | property (key : Text) : AboutTaken .duplicatedProperty
      (Text.lit "Duplicated property " ++ Text.inTicks key ++ Text.lit " for object map literal")
  | closureParam (param : Text) : AboutTaken .fnDuplicatedParam
      (Text.lit "Duplicated parameter " ++ Text.inTicks param ++ Text.lit " for function ''")
  | param (param function : Text) : AboutTaken .fnDuplicatedParam
      (Text.lit "Duplicated parameter " ++ Text.inTicks param ++ Text.lit " for function " ++
        Text.inTicks function)
  | exported (name : Text) : AboutTaken .duplicatedExport
      (Text.lit "Duplicated variable name " ++ Text.inTicks name ++ Text.lit " in export statement")
  | definition (name : Text) (params : Nat) : AboutTaken .fnDuplicatedDefinition
      (Text.lit "Function " ++ Text.inTicks name ++ Text.lit " with " ++ Text.ofNat params ++
        Text.lit " parameter(s) is already defined")
  | negative (n : Integer) : AboutTaken .malformedIndexExpr
      (Text.lit "Array access expects non-negative index: " ++ n.text ++ Text.lit " < 0")
  | float : AboutTaken .malformedIndexExpr (Text.lit "Array access expects integer index, not a float")
  | bool : AboutTaken .malformedIndexExpr (Text.lit "Array access expects integer index, not a boolean")
  | char : AboutTaken .malformedIndexExpr (Text.lit "Array access expects integer index, not a character")
  | unit : AboutTaken .malformedIndexExpr (Text.lit "Array access expects integer index, not ()")

/-- Reports of a missing name or token that are made without a look at what comes instead. -/
inductive Unlooked : ParseFault → Text → Prop where
  | path : Unlooked .variableExpected (Text.lit "Expecting name of a variable or function after '::'")
  | member : Unlooked .propertyExpected (Text.lit "Expecting name of a property")
  | closureBar : Unlooked .missingToken (Text.lit "Expecting '|' to close the parameters list of this closure")
  | imported : Unlooked .variableExpected (Text.lit "Expecting name of the imported module")
  | exported : Unlooked .variableExpected (Text.lit "Expecting name of a variable to export")
  | exportedAs : Unlooked .variableExpected (Text.lit "Expecting alias of the exported variable")
  | loop : Unlooked .variableExpected (Text.lit "Expecting name of the loop variable")
  | function : Unlooked .fnMissingName (Text.lit "Expecting name in function declaration")
  | params (name : Text) :
      Unlooked .fnMissingParams (Text.lit "Expecting parameters for function " ++ Text.inTicks name)
  | closer (name : Text) : Unlooked .missingToken
      (Text.lit "Expecting ')' to close the parameters list of function " ++ Text.inTicks name)
  | body (name : Text) : Unlooked .fnMissingBody
      (Text.lit "Expecting body statement block for function " ++ Text.inTicks name)
  | definition : Unlooked .missingToken (Text.lit "Expecting 'fn' after 'private'")

def Took (tokens rest : List PlacedToken) (place : Position) : Prop :=
  ∃ used token, tokens = used ++ rest ∧ (token, place) ∈ used

inductive Reports (took : Position → Prop) (fault : LexError) (pos : Position) : Error → Prop where
  | fault : Reports took fault pos (lexicalError fault pos)
  | taken {kind : ParseFault} {detail : Text} {place : Position} (h : AboutTaken kind detail)
      (there : took place) : Reports took fault pos ⟨.parsing (some kind) detail, place⟩
  | tooDeep : Reports took fault pos
      ⟨.parsing (some .exprTooDeep) (Text.lit "Expression exceeds maximum complexity"), pos⟩
  | unlooked {kind : ParseFault} {detail : Text} (h : Unlooked kind detail) :
      Reports took fault pos ⟨.parsing (some kind) detail, pos⟩

variable {tokens rest : List PlacedToken} {place : Position} {s t : State}

theorem Took.later {rest' : List PlacedToken} (h : Took tokens rest place) (on : rest' <:+ rest) :
    Took tokens rest' place := by
  obtain ⟨used, token, split, mem⟩ := h
  obtain ⟨more, rfl⟩ := on
  exact ⟨used ++ more, token, by rw [split, List.append_assoc], List.mem_append_left more mem⟩

theorem took_tail (on : s.rest <:+ tokens) (more : s.current.1 ≠ .eof) :
    Took tokens s.rest.tail s.current.2 := by
  obtain ⟨used, split⟩ := on
  cases here : s.rest with
  | nil => exact absurd (by rw [State.current, here]; rfl) more
  | cons first later =>
    refine ⟨used ++ [first], first.1, ?_, ?_⟩
    · rw [← split, here, List.append_assoc]
      rfl
    · rw [State.current, here]
      exact List.mem_append_right used (List.mem_singleton_self first)

def State.Explains (tokens : List PlacedToken) (s : State) (e : Error) : Prop :=
  ∀ fault pos, s.current = (.fault fault, pos) → Reports (Took tokens s.rest) fault pos e

/-- Reading from this state goes forward to something with a property, or fails with an error that is
explained by where it stopped. -/
structure BlamesAt {α : Type} (tokens : List PlacedToken) (Q : List PlacedToken → α → Prop) (s : State)
    (p : Parse α) : Prop where
  explained : ∀ e t, p s = .error (.fault e) t → t.Explains tokens e
  given : ∀ a t, p s = .ok a t → t.rest <:+ s.rest ∧ Q t.rest a

def Blames {α : Type} (tokens : List PlacedToken) (Q : List PlacedToken → α → Prop) (p : Parse α) : Prop :=
  ∀ s, s.rest <:+ tokens → BlamesAt tokens Q s p

def Any {α : Type} : List PlacedToken → α → Prop := fun _ _ => True

def Located (tokens rest : List PlacedToken) : Expr → Prop
  | .int pos _ | .float pos _ | .bool pos _ | .char pos _ | .unit pos => Took tokens rest pos
  | _ => True

def State.Lexed (s : State) : Prop := ∀ fault, s.current.1 ≠ .fault fault

theorem State.Lexed.explains (lexed : s.Lexed) (e : Error) : s.Explains tokens e :=
  fun fault _ here => absurd (congrArg Prod.fst here) (lexed fault)

theorem State.lexed_of_current {token : Token} (here : s.current.1 = token)
    (other : ∀ fault, token ≠ .fault fault) : s.Lexed :=
  fun fault same => other fault (here.symm.trans same)

theorem Located.later {rest' : List PlacedToken} {e : Expr} (h : Located tokens rest e)
    (on : rest' <:+ rest) : Located tokens rest' e := by
  unfold Located at h ⊢
  split at h
  all_goals first | exact Took.later h on | trivial

theorem located_negated (took : Took tokens rest place) (e : Expr) :
    Located tokens rest (negated place e) := by
  unfold negated
  split
  · split
    · exact took
    · trivial
  · exact took
  · trivial

theorem located_affirmed {e : Expr} (h : Located tokens rest e) (pos : Position) :
    Located tokens rest (affirmed pos e) := by
  unfold affirmed
  split
  · exact h
  · exact h
  · trivial

theorem located_combine (op : Token) (pos : Position) (left right : Expr) :
    Located tokens rest (combine op pos left right) := by
  unfold combine
  split <;> trivial

variable {α β : Type} {Q : List PlacedToken → α → Prop} {R : List PlacedToken → β → Prop}

namespace BlamesAt

theorem give {a : α} (h : Q s.rest a) : BlamesAt tokens Q s (pure a) where
  explained e t failed := nomatch failed
  given b t read := by
    cases read
    exact ⟨List.suffix_refl _, h⟩

theorem bind {p : Parse α} {f : α → Parse β} (hp : BlamesAt tokens Q s p)
    (hf : ∀ a t, t.rest <:+ s.rest → Q t.rest a → BlamesAt tokens R t (f a)) :
    BlamesAt tokens R s (p >>= f) := by
  constructor
  · intro e u failed
    cases first : p s with
    | ok a t =>
      rw [bind_of_ok first] at failed
      obtain ⟨later, ha⟩ := hp.given a t first
      exact (hf a t later ha).explained e u failed
    | error stop t =>
      rw [bind_of_error first] at failed
      cases failed
      exact hp.explained _ _ first
  · intro b u read
    obtain ⟨a, t, first, next⟩ := bind_cases read
    obtain ⟨later, ha⟩ := hp.given a t first
    obtain ⟨last, hb⟩ := (hf a t later ha).given b u next
    exact ⟨last.trans later, hb⟩

theorem failed {p : Parse α} (hp : BlamesAt tokens Any s p) (fails : Fails p) (f : α → Parse β) :
    BlamesAt tokens R s (p >>= f) :=
  bind (Q := fun _ _ => False) ⟨hp.explained, fun a t read => absurd read (fails s a t)⟩
    fun _ _ _ none => none.elim

theorem get {f : State → Parse β} (h : BlamesAt tokens R s (f s)) : BlamesAt tokens R s (get >>= f) :=
  ⟨fun e t failed => h.explained e t failed, fun b t read => h.given b t read⟩

theorem current {f : Token → Parse β} (h : BlamesAt tokens R s (f s.current.1)) :
    BlamesAt tokens R s (current >>= f) :=
  ⟨fun e t failed => h.explained e t failed, fun b t read => h.given b t read⟩

theorem currentPos {f : Position → Parse β} (h : BlamesAt tokens R s (f s.current.2)) :
    BlamesAt tokens R s (currentPos >>= f) :=
  ⟨fun e t failed => h.explained e t failed, fun b t read => h.given b t read⟩

theorem take (on : s.rest <:+ tokens) (more : s.current.1 ≠ .eof) {f : PlacedToken → Parse β}
    (h : ∀ t, t.rest <:+ s.rest → Took tokens t.rest s.current.2 → BlamesAt tokens R t (f s.current)) :
    BlamesAt tokens R s (advance >>= f) := by
  have taken : advance s = .ok s.current { s with rest := s.rest.tail } := rfl
  have later : s.rest.tail <:+ s.rest := List.tail_suffix s.rest
  have rest := h { s with rest := s.rest.tail } later (took_tail on more)
  constructor
  · intro e t failed
    rw [bind_of_ok taken] at failed
    exact rest.explained e t failed
  · intro b t read
    rw [bind_of_ok taken] at read
    obtain ⟨last, hb⟩ := rest.given b t read
    exact ⟨last.trans later, hb⟩

theorem failAt (lexed : s.Lexed) (pos : Position) (kind : ParseFault) (detail : Text) :
    BlamesAt tokens Q s (failAt pos kind detail) where
  explained e t failed := by
    cases failed
    exact lexed.explains _
  given a t read := nomatch read

theorem fail (lexed : s.Lexed) (kind : ParseFault) (detail : Text) : BlamesAt tokens Q s (fail kind detail) :=
  currentPos (failAt lexed _ _ _)

theorem taken {kind : ParseFault} {detail : Text} (h : AboutTaken kind detail)
    (took : Took tokens s.rest place) : BlamesAt tokens Q s (Grammar.failAt place kind detail) where
  explained e t failed := by
    cases failed
    exact fun fault pos here => .taken h took
  given a t read := nomatch read

end BlamesAt

namespace Blames

theorem give {a : α} (h : ∀ rest, Q rest a) : Blames tokens Q (pure a) := fun s _ => .give (h s.rest)

theorem done (a : α) : Blames tokens Any (pure a) := give fun _ => trivial

theorem stop : Blames tokens Q (throw .exhausted : Parse α) := fun _ _ => ⟨nofun, nofun⟩

theorem bind {p : Parse α} {f : α → Parse β} (hp : Blames tokens Q p) (hf : ∀ a, Blames tokens R (f a)) :
    Blames tokens R (p >>= f) :=
  fun s on => (hp s on).bind fun a t later _ => hf a t (later.trans on)

theorem map {p : Parse α} (hp : Blames tokens Q p) {f : α → β} (hf : ∀ a rest, R rest (f a)) :
    Blames tokens R (f <$> p) := by
  rw [map_eq_pure_bind]
  exact hp.bind fun a => give (hf a)

theorem failed {p : Parse α} (hp : Blames tokens Any p) (fails : Fails p) (f : α → Parse β) :
    Blames tokens R (p >>= f) :=
  fun s on => (hp s on).failed fails f

theorem of_ok {p : Parse α} (h : ∀ s, ∃ a t, p s = .ok a t ∧ t.rest <:+ s.rest) : Blames tokens Any p := by
  intro s on
  obtain ⟨a, t, read, later⟩ := h s
  constructor
  · intro e u failed
    cases read.symm.trans failed
  · intro b u again
    cases read.symm.trans again
    exact ⟨later, trivial⟩

theorem unlooked {kind : ParseFault} {detail : Text} (h : Unlooked kind detail) :
    Blames tokens Q (fail kind detail : Parse α) := by
  refine fun s _ => ⟨fun e t failed => ?_, nofun⟩
  cases failed
  intro fault pos here
  rw [here]
  exact .unlooked h

theorem unlessEnd {kind : ParseFault} {detail : Text} {f : α → Parse β} {q : Parse β}
    (hq : Blames tokens R q) : Blames tokens R
      (atEnd >>= fun ended => if ended = true then (fail kind detail : Parse α) >>= f else q) := by
  intro s on
  have looks : BlamesAt tokens R s (if s.current.1.isEof = true then fail kind detail >>= f else q) := by
    split
    · next ended =>
      have lexed : s.Lexed := fun fault here => by rw [here] at ended; cases ended
      exact (BlamesAt.fail lexed kind detail).failed (fail_fails kind detail) f
    · exact hq s on
  exact ⟨fun e t failed => looks.explained e t failed, fun b t read => looks.given b t read⟩

end Blames

open Blames

theorem quiet_blames {p : Parse α} (h : ∀ s, ∃ a t, p s = .ok a t ∧ t.rest = s.rest) :
    Blames tokens Any p :=
  .of_ok fun s => by
    obtain ⟨a, t, read, same⟩ := h s
    exact ⟨a, t, read, same ▸ List.suffix_refl t.rest⟩

theorem modify_blames {f : State → State} (keeps : ∀ s, (f s).rest = s.rest) :
    Blames tokens Any (modify f : Parse PUnit) :=
  quiet_blames fun s => ⟨.unit, f s, rfl, keeps s⟩

theorem get_blames : Blames tokens Any (get : Parse State) := quiet_blames fun s => ⟨s, s, rfl, rfl⟩

theorem current_blames : Blames tokens Any current := quiet_blames fun s => ⟨_, s, rfl, rfl⟩

theorem currentPos_blames : Blames tokens Any currentPos := quiet_blames fun s => ⟨_, s, rfl, rfl⟩

theorem second_blames : Blames tokens Any second := quiet_blames fun s => ⟨_, s, rfl, rfl⟩

theorem remaining_blames : Blames tokens Any remaining := quiet_blames fun s => ⟨_, s, rfl, rfl⟩

theorem atEnd_blames : Blames tokens Any atEnd := quiet_blames fun s => ⟨_, s, rfl, rfl⟩

theorem freshClosure_blames : Blames tokens Any freshClosure := quiet_blames fun _ => ⟨_, _, rfl, rfl⟩

theorem use_blames (name : Text) : Blames tokens Any (use name) := modify_blames fun _ => rfl

theorem declare_blames (name : Text) : Blames tokens Any (declare name) := modify_blames fun _ => rfl

theorem define_blames (f : ScriptFn) : Blames tokens Any (define f) := modify_blames fun _ => rfl

theorem advance_blames : Blames tokens Any advance :=
  .of_ok fun s => ⟨_, _, rfl, List.tail_suffix s.rest⟩

theorem check_blames (symbol : Symbol) : Blames tokens Any (check symbol) := by
  refine current_blames.bind fun token => ?_
  split <;> exact done _

theorem accept_blames (symbol : Symbol) : Blames tokens Any (accept symbol) := by
  refine (check_blames symbol).bind fun found => ?_
  split
  · exact advance_blames.bind fun _ => done _
  · exact done _

theorem identifier?_blames : Blames tokens Any identifier? := by
  refine current_blames.bind fun token => ?_
  split <;> exact done _

theorem service?_blames : Blames tokens Any service? := by
  refine current_blames.bind fun token => ?_
  split <;> exact done _

theorem unexpected_blames : Blames tokens Q (unexpected : Parse α) := by
  intro s on
  refine .get ?_
  dsimp only
  split
  · next fault here =>
    refine ⟨fun e t failed => ?_, nofun⟩
    cases failed
    intro other pos placed
    rw [placed] at here ⊢
    cases here
    exact .fault
  · next here => exact .failAt (State.lexed_of_current here nofun) _ _ _
  · next here =>
    have lexed : s.Lexed := State.lexed_of_current here nofun
    split
    · exact .failAt lexed _ _ _
    · split <;> exact .failAt lexed _ _ _
  · next other _ _ => exact .failAt other _ _ _

theorem failUnlessLexed_blames (kind : ParseFault) (detail : Text) :
    Blames tokens Q (failUnlessLexed kind detail : Parse α) := by
  intro s on
  refine .current ?_
  split
  · exact unexpected_blames s on
  · next other => exact .fail other _ _

theorem expect_blames (symbol : Symbol) (detail : Text) : Blames tokens Any (expect symbol detail) := by
  refine (accept_blames symbol).bind fun found => ?_
  split
  · exact done _
  · exact failUnlessLexed_blames _ _

theorem useAll_blames (names : List Text) : Blames tokens Any (names.forM use) := by
  induction names with
  | nil => exact done _
  | cons name rest ih => exact (use_blames name).bind fun _ => ih

theorem BlamesAt.around {p : Parse α} (h : BlamesAt tokens Q s p) {f : α → State → State}
    (keeps : ∀ a s, (f a s).rest = s.rest) :
    BlamesAt tokens Q s (p >>= fun a => modify (f a) >>= fun _ => pure a) := by
  refine h.bind fun a t later ha => ⟨nofun, fun b u read => ?_⟩
  cases read
  rw [keeps]
  exact ⟨List.suffix_refl _, ha⟩

theorem nested_blames {p : Parse α} (h : Blames tokens Q p) (settings : Settings) :
    Blames tokens Q (nested settings p) := by
  intro s on
  refine .get ?_
  split
  · refine ⟨fun e t failed => ?_, nofun⟩
    cases failed
    intro fault pos here
    rw [here]
    exact .tooDeep
  · have deeper := (h { s with depth := s.depth + 1 } on).around (f := fun _ s => { s with depth := s.depth - 1 })
      fun _ _ => rfl
    exact ⟨fun e t failed => deeper.explained e t failed, fun b t read => deeper.given b t read⟩

theorem inScope_blames {p : Parse α} (h : Blames tokens Q p) : Blames tokens Q (inScope p) :=
  fun s on => .get ((h s on).around fun _ _ => rfl)

theorem inBody_blames {p : Parse α} (h : Blames tokens Q p) (body : Body) :
    Blames tokens Any (inBody body p) := by
  refine Blames.bind (modify_blames ?_) fun _ => h.bind fun a => get_blames.bind fun inner => ?_
  · exact fun _ => rfl
  · refine Blames.bind (modify_blames ?_) fun _ => done _
    exact fun _ => rfl

theorem inLoop_blames {p : Parse α} (h : Blames tokens Q p) : Blames tokens Q (inLoop p) := by
  refine Blames.bind (modify_blames ?_) fun _ s on => (h s on).around ?_
  · exact fun _ => rfl
  · exact fun _ _ => rfl

/-! Expressions. -/

structure Rules.Blame (tokens : List PlacedToken) (rules : Rules) : Prop where
  expression : Blames tokens (Located tokens) rules.expression
  unary : Blames tokens (Located tokens) rules.unary
  statement : Blames tokens Any rules.statement
  block : Blames tokens Any rules.block
  branch : Blames tokens (Located tokens) rules.branch

theorem BlamesAt.identifier? {f : Option Text → Parse β} (absent : BlamesAt tokens R s (f none))
    (present : ∀ name, s.current.1 ≠ .eof → BlamesAt tokens R s (f (some name))) :
    BlamesAt tokens R s (Grammar.identifier? >>= f) := by
  unfold Grammar.identifier?
  rw [bind_assoc]
  refine .current ?_
  split
  · next name here =>
    rw [pure_bind]
    exact present name (by rw [here]; nofun)
  · rw [pure_bind]
    exact absent

theorem BlamesAt.check {symbol : Symbol} {f : Bool → Parse β}
    (present : s.current.1 = .symbol symbol → BlamesAt tokens R s (f true))
    (absent : s.current.1 ≠ .symbol symbol → BlamesAt tokens R s (f false)) :
    BlamesAt tokens R s (Grammar.check symbol >>= f) := by
  unfold Grammar.check
  rw [bind_assoc]
  refine .current ?_
  split
  · next found here =>
    rw [pure_bind]
    by_cases same : found = symbol
    · rw [decide_eq_true same]
      exact present (by rw [here, same])
    · rw [decide_eq_false same]
      exact absent fun there => same (by rw [here] at there; injection there)
  · next other =>
    rw [pure_bind]
    exact absent (other symbol)

theorem BlamesAt.accept (on : s.rest <:+ tokens) {symbol : Symbol} {f : Bool → Parse β}
    (present : ∀ t, t.rest <:+ tokens → BlamesAt tokens R t (f true))
    (absent : s.current.1 ≠ .symbol symbol → BlamesAt tokens R s (f false)) :
    BlamesAt tokens R s (Grammar.accept symbol >>= f) := by
  unfold Grammar.accept
  rw [bind_assoc]
  refine .check (fun _ => ?_) fun other => ?_
  · rw [if_pos rfl, bind_assoc]
    refine (advance_blames s on).bind fun _ t later _ => ?_
    rw [pure_bind]
    exact present t (later.trans on)
  · rw [if_neg Bool.false_ne_true, pure_bind]
    exact absent other

theorem BlamesAt.mapKey (on : s.rest <:+ tokens) {f : Text → Parse β}
    (present : ∀ key, s.current.1 ≠ .eof → BlamesAt tokens R s (f key)) :
    BlamesAt tokens R s (Grammar.mapKey >>= f) := by
  unfold Grammar.mapKey
  rw [bind_assoc]
  refine .current ?_
  split
  · next key here =>
    rw [pure_bind]
    exact present key (by rw [here]; nofun)
  · next key here =>
    rw [pure_bind]
    exact present key (by rw [here]; nofun)
  · exact (failUnlessLexed_blames _ _ s on).failed (failUnlessLexed_fails _ _) f

theorem pathStep_blames {n : Nat} {modules : List Text} {name : Text}
    (later : ∀ modules name, Blames tokens Any (path n modules name)) (next : Option Text) :
    Blames tokens Any
      (match next with
        | some next => do
          let _ ← advance
          path n (modules ++ [name]) next
        | none => fail .variableExpected
            (Text.lit "Expecting name of a variable or function after '::'")) := by
  cases next with
  | some next => exact advance_blames.bind fun _ => later _ _
  | none => exact unlooked .path

theorem path_blames (n : Nat) (modules : List Text) (name : Text) :
    Blames tokens Any (path n modules name) := by
  induction n generalizing modules name with
  | zero => exact stop
  | succ n ih =>
    refine (accept_blames _).bind fun found => ?_
    split
    · refine identifier?_blames.bind fun word => ?_
      cases word with
      | some word => exact (done (some word)).bind fun next => pathStep_blames ih next
      | none => exact service?_blames.bind fun next => pathStep_blames ih next
    · exact done _

theorem closureParams_blames (n : Nat) (params : List Text) : Blames tokens Any (closureParams n params) := by
  induction n generalizing params with
  | zero => exact stop
  | succ n ih =>
    refine (accept_blames _).bind fun found => ?_
    split
    · exact done _
    · intro s on
      refine .identifier? (failUnlessLexed_blames _ _ s on) fun param there => ?_
      refine .take on there fun t later took => ?_
      dsimp only
      split
      · exact (BlamesAt.taken (.closureParam param) took).failed (failAt_fails _ _ _) _
      · refine (accept_blames _).bind (fun comma => ?_) t (later.trans on)
        split
        · refine (check_blames _).bind fun closes => ?_
          split
          · exact (unlooked .closureBar).failed (fail_fails _ _) _
          · exact ih _
        · exact ih _

theorem memberName_blames : Blames tokens Any memberName := by
  refine current_blames.bind fun token => ?_
  split
  · exact done _
  · exact done _
  · split
    · exact done _
    · exact unlooked .member
  · exact unlooked .member

theorem checkIndex_blames {e : Expr} (located : Located tokens s.rest e) :
    BlamesAt tokens Any s (checkIndex e) := by
  unfold checkIndex
  split
  · split
    · exact .taken (.negative _) located
    · exact .give trivial
  · exact .taken .float located
  · exact .taken .bool located
  · exact .taken .char located
  · exact .taken .unit located
  · exact .give trivial

section

variable {rules : Rules} (blame : rules.Blame tokens) (settings : Settings)
include blame

theorem items_blames (closer : Symbol) (unclosed unseparated : Text) (n : Nat) (found : List Expr) :
    Blames tokens Any (items rules closer unclosed unseparated n found) := by
  induction n generalizing found with
  | zero => exact stop
  | succ n ih =>
    refine (accept_blames closer).bind fun finished => ?_
    split
    · exact done _
    · refine unlessEnd (blame.expression.bind fun e => ?_)
      refine (accept_blames _).bind fun comma => ?_
      split
      · refine (check_blames closer).bind fun closes => ?_
        split
        · exact (failUnlessLexed_blames _ _).failed (failUnlessLexed_fails _ _) _
        · exact ih _
      · exact ih _

theorem arguments_blames (name : Text) : Blames tokens Any (arguments rules name) :=
  advance_blames.bind fun _ => remaining_blames.bind fun _ => items_blames blame _ _ _ _ _

theorem arrayLiteral_blames : Blames tokens (Located tokens) (arrayLiteral rules) :=
  advance_blames.bind fun _ => remaining_blames.bind fun _ =>
    (items_blames blame _ _ _ _ _).bind fun _ => give fun _ => trivial

theorem mapEntries_blames (n : Nat) (found : List (Text × Expr)) :
    Blames tokens Any (mapEntries rules n found) := by
  induction n generalizing found with
  | zero => exact stop
  | succ n ih =>
    refine (accept_blames _).bind fun finished => ?_
    split
    · exact done _
    · refine unlessEnd fun s on => .mapKey on fun key there => ?_
      refine .take on there fun t later took => ?_
      dsimp only
      split
      · exact (BlamesAt.taken (.property key) took).failed (failAt_fails _ _ _) _
      · refine (expect_blames _ _).bind (fun _ => blame.expression.bind fun e => ?_) t (later.trans on)
        refine (accept_blames _).bind fun comma => ?_
        split
        · refine (check_blames _).bind fun closes => ?_
          split
          · exact (failUnlessLexed_blames _ _).failed (failUnlessLexed_fails _ _) _
          · exact ih _
        · exact ih _

theorem mapLiteral_blames : Blames tokens (Located tokens) (mapLiteral rules) :=
  advance_blames.bind fun _ => remaining_blames.bind fun _ =>
    (mapEntries_blames blame _ _).bind fun _ => give fun _ => trivial

theorem named_blames (pos : Position) (first : Text) :
    Blames tokens (Located tokens) (named rules pos first) := by
  refine remaining_blames.bind fun n => (path_blames _ _ _).bind fun found => ?_
  refine (check_blames _).bind fun called => ?_
  split
  · exact (arguments_blames blame _).bind fun _ => give fun _ => trivial
  · dsimp only
    split
    · exact (use_blames _).bind fun _ => give fun _ => trivial
    · exact give fun _ => trivial

theorem closureBody_blames (pos : Position) (params : List Text) :
    Blames tokens (Located tokens) (closureBody rules pos params) :=
  currentPos_blames.bind fun _ => (inBody_blames blame.statement _).bind fun _ =>
    freshClosure_blames.bind fun _ => (define_blames _).bind fun _ =>
      (useAll_blames _).bind fun _ => give fun _ => trivial

theorem closure_blames : Blames tokens (Located tokens) (closure rules) := by
  refine advance_blames.bind fun opened => ?_
  obtain ⟨token, pos⟩ := opened
  dsimp only
  split
  · exact (done _).bind fun params => closureBody_blames blame pos params
  · exact remaining_blames.bind fun n => (closureParams_blames _ _).bind fun params =>
      closureBody_blames blame pos params

theorem wordCall_blames (pos : Position) (name : Text) :
    Blames tokens (Located tokens) (wordCall rules pos name) :=
  advance_blames.bind fun _ => (arguments_blames blame name).bind fun _ => give fun _ => trivial

theorem primary_blames : Blames tokens (Located tokens) (primary settings rules) := by
  intro s on
  have literal {e : Expr} {token : Token} (here : s.current.1 = token) (more : token ≠ .eof)
      (located : ∀ t : State, Took tokens t.rest s.current.2 → Located tokens t.rest e) :
      BlamesAt tokens (Located tokens) s (do let _ ← advance; return e) :=
    .take on (here ▸ more) fun t _ took => .give (located t took)
  refine .currentPos (.current ?_)
  split
  · next here => exact literal here nofun fun _ took => took
  · next here => exact literal here nofun fun _ took => took
  · next here => exact literal here nofun fun _ took => took
  · next here => exact literal here nofun fun _ _ => trivial
  · next here => exact literal here nofun fun _ took => took
  · next here => exact literal here nofun fun _ took => took
  · next here =>
    refine .take on (by rw [here]; nofun) fun t later took => ?_
    refine (accept_blames _ t (later.trans on)).bind fun closed u later' _ => ?_
    have on' : u.rest <:+ tokens := later'.trans (later.trans on)
    split
    · exact .give (took.later later')
    · refine (blame.expression u on').bind fun e v later'' located => ?_
      refine (expect_blames _ _ v (later''.trans on')).bind fun _ w last _ => ?_
      exact .give (located.later last)
  · exact arrayLiteral_blames blame s on
  · exact mapLiteral_blames blame s on
  · dsimp only
    split
    · exact unexpected_blames.failed unexpected_fails _ s on
    · exact blame.block.bind (fun b => give fun _ => trivial) s on
  · dsimp only
    split
    · exact unexpected_blames.failed unexpected_fails _ s on
    · exact blame.branch s on
  · dsimp only
    split
    · exact unexpected_blames.failed unexpected_fails _ s on
    · exact closure_blames blame s on
  · dsimp only
    split
    · exact unexpected_blames.failed unexpected_fails _ s on
    · exact closure_blames blame s on
  · exact advance_blames.bind (fun _ => named_blames blame _ _) s on
  · refine second_blames.bind (fun next => ?_) s on
    split
    · exact wordCall_blames blame _ _
    · exact unexpected_blames
  · split
    · refine .get ?_
      split
      · exact unexpected_blames.failed unexpected_fails _ s on
      · exact advance_blames.bind (fun _ => give fun _ => trivial) s on
    · refine second_blames.bind (fun next => ?_) s on
      split
      · exact wordCall_blames blame _ _
      · exact unexpected_blames
  · exact unexpected_blames s on

theorem suffixes_blames (on : s.rest <:+ tokens) (n : Nat) {e : Expr} (located : Located tokens s.rest e) :
    BlamesAt tokens (Located tokens) s (suffixes rules n e) := by
  induction n generalizing s e with
  | zero => exact stop s on
  | succ n ih =>
    refine .currentPos ?_
    refine (accept_blames _ s on).bind fun indexed t later _ => ?_
    have on := later.trans on
    split
    · refine (blame.expression t on).bind fun index u later index_located => ?_
      refine (checkIndex_blames index_located).bind fun _ v later' _ => ?_
      have on := later'.trans (later.trans on)
      exact (expect_blames _ _ v on).bind fun _ w last _ => ih (last.trans on) trivial
    · refine (accept_blames _ t on).bind fun member u later' _ => ?_
      have on := later'.trans on
      split
      · refine (memberName_blames.bind fun name => advance_blames.bind fun _ => ?_) u on
        refine (check_blames _).bind fun called => ?_
        split
        · exact (arguments_blames blame name).bind fun _ v on => ih on trivial
        · exact fun v on => ih on trivial
      · exact .give (located.later (later'.trans later))

theorem operand_blames : Blames tokens (Located tokens) (operand settings rules) := by
  intro s on
  refine (primary_blames blame settings s on).bind fun e t later located => ?_
  refine (remaining_blames t (later.trans on)).bind fun n u later' _ => ?_
  exact suffixes_blames blame (later'.trans (later.trans on)) _ (located.later later')

theorem unary_blames : Blames tokens (Located tokens) (unary settings rules) := by
  refine nested_blames (fun s on => ?_) settings
  have signed {sign : Expr → Expr} {token : Token} (here : s.current.1 = token) (more : token ≠ .eof)
      (keeps : ∀ rest e, Took tokens rest s.current.2 → Located tokens rest e →
        Located tokens rest (sign e)) :
      BlamesAt tokens (Located tokens) s (do let _ ← advance; return sign (← rules.unary)) := by
    refine .take on (here ▸ more) fun t later took => ?_
    refine (blame.unary t (later.trans on)).bind fun e u later' located => ?_
    exact .give (keeps u.rest e (took.later later') located)
  refine .currentPos (.current ?_)
  split
  · next here => exact signed here nofun fun _ e took _ => located_negated took e
  · next here => exact signed here nofun fun _ e took _ => located_negated took e
  · next here => exact signed here nofun fun _ _ _ located => located_affirmed located _
  · next here => exact signed here nofun fun _ _ _ located => located_affirmed located _
  · next here => exact signed here nofun fun _ _ _ _ => trivial
  · exact operand_blames blame settings s on

theorem binary_blames (on : s.rest <:+ tokens) (n least : Nat) {left : Expr}
    (located : Located tokens s.rest left) :
    BlamesAt tokens (Located tokens) s (binary settings rules n least left) := by
  induction n generalizing s least left with
  | zero => exact stop s on
  | succ n ih =>
    refine .current ?_
    dsimp only
    split
    · exact .give located
    · refine (advance_blames s on).bind fun taken t later _ => ?_
      refine (blame.unary t (later.trans on)).bind fun right u later' located => ?_
      have on : u.rest <:+ tokens := later'.trans (later.trans on)
      refine .current ?_
      have more {p : Parse Expr} (h : BlamesAt tokens (Located tokens) u p) :
          BlamesAt tokens (Located tokens) u (p >>= fun right =>
            binary settings rules n least (combine taken.1 taken.2 left right)) :=
        h.bind fun right v last _ => ih (last.trans on) _ (located_combine _ _ _ _)
      split
      · exact more (.give located)
      · split
        · exact more (ih on _ located)
        · split
          · exact more (ih on _ located)
          · exact more (.give located)

theorem expression_blames : Blames tokens (Located tokens) (expression settings rules) := by
  intro s on
  refine (unary_blames blame settings s on).bind fun left t later located => ?_
  refine (remaining_blames t (later.trans on)).bind fun n u later' _ => ?_
  exact binary_blames blame settings (later'.trans (later.trans on)) _ _ (located.later later')

end

/-! Statements. -/

theorem closed_blames (closer : Option Symbol) : Blames tokens Any (closed closer) := by
  refine atEnd_blames.bind fun ended => ?_
  split
  · exact done _
  · split
    · exact check_blames _
    · exact done _

theorem statementEnd_blames (stmt : Option Stmt) (closer : Option Symbol) :
    Blames tokens Any (statementEnd stmt closer) := by
  refine (closed_blames closer).bind fun finished => ?_
  split
  · exact done _
  · refine (accept_blames _).bind fun separated => ?_
    split
    · exact closed_blames closer
    · split
      · exact done _
      · exact failUnlessLexed_blames _ _

theorem optionalAlias_blames {missing : Text} (h : Unlooked .variableExpected missing) :
    Blames tokens Any (optionalAlias missing) := by
  refine (accept_blames _).bind fun found => ?_
  split
  · refine identifier?_blames.bind fun name => ?_
    cases name with
    | none => exact unlooked h
    | some name => exact advance_blames.bind fun _ => done _
  · exact done _

theorem exportNames_blames (n : Nat) (found : List (Text × Option Text)) :
    Blames tokens Any (exportNames n found) := by
  induction n generalizing found with
  | zero => exact stop
  | succ n ih =>
    intro s on
    refine .identifier? (unlooked .exported s on) fun name there => ?_
    refine .take on there fun t later took => ?_
    refine (use_blames name t (later.trans on)).bind fun _ u later' _ => ?_
    have on : u.rest <:+ tokens := later'.trans (later.trans on)
    refine (optionalAlias_blames .exportedAs u on).bind fun asName v last _ => ?_
    dsimp only
    split
    · have took := took.later (last.trans later')
      exact (BlamesAt.taken (.exported _) took).failed (failAt_fails _ _ _) _
    · refine (accept_blames _).bind (fun more => ?_) v (last.trans on)
      split
      · exact ih _
      · exact done _

theorem exportStatement_blames : Blames tokens Any exportStatement :=
  advance_blames.bind fun _ => remaining_blames.bind fun _ =>
    (exportNames_blames _ _).bind fun _ => done _

theorem functionParams_blames (function : Text) (n : Nat) (params : List Text) :
    Blames tokens Any (functionParams function n params) := by
  induction n generalizing params with
  | zero => exact stop
  | succ n ih =>
    refine (accept_blames _).bind fun closes => ?_
    split
    · exact done _
    · intro s on
      refine .identifier? (failUnlessLexed_blames _ _ s on) fun param there => ?_
      refine .take on there fun t later took => ?_
      dsimp only
      split
      · exact (BlamesAt.taken (.param param function) took).failed (failAt_fails _ _ _) _
      · refine (accept_blames _).bind (fun comma => ?_) t (later.trans on)
        split
        · refine (check_blames _).bind fun closes => ?_
          split
          · exact (unlooked (.closer function)).failed (fail_fails _ _) _
          · exact ih _
        · exact ih _

theorem functionName_blames : Blames tokens Any functionName := by
  refine current_blames.bind fun token => ?_
  split
  · exact done _
  · exact done _
  · split
    · exact done _
    · exact unlooked .function
  · exact unlooked .function

theorem loopControl_blames (on : s.rest <:+ tokens) (lexed : s.Lexed) (word : Text)
    (stmt : Position → Stmt) : BlamesAt tokens Any s (loopControl word stmt) := by
  refine .currentPos (.get ?_)
  dsimp only
  split
  · exact (BlamesAt.failAt lexed _ _ _).failed (failAt_fails _ _ _) _
  · exact advance_blames.bind (fun _ => done _) s on

section

variable {rules : Rules} (blame : rules.Blame tokens) (settings : Settings)
include blame

theorem blockStatements_blames (n : Nat) (found : List Stmt) :
    Blames tokens Any (blockStatements rules n found) := by
  induction n generalizing found with
  | zero => exact stop
  | succ n ih =>
    refine (check_blames _).bind fun closes => ?_
    split
    · exact done _
    · refine unlessEnd (blame.statement.bind fun stmt => ?_)
      refine (statementEnd_blames _ _).bind fun finished => ?_
      dsimp only
      split
      · exact done _
      · exact ih _

theorem block_blames : Blames tokens Any (block settings rules) := by
  refine nested_blames ?_ settings
  have body : Blames tokens Any (do
      let body ← blockStatements rules ((← remaining) + 1) []
      expect .rightBrace (Text.lit "Expecting '\x7d' to end this statement block")
      return body) :=
    remaining_blames.bind fun _ => (blockStatements_blames blame _ _).bind fun _ =>
      (expect_blames _ _).bind fun _ => done _
  exact currentPos_blames.bind fun _ => (expect_blames _ _).bind fun _ =>
    (inScope_blames body).bind fun _ => done _

theorem blockExpr_blames : Blames tokens Any (blockExpr settings rules) :=
  (block_blames blame settings).bind fun _ => done _

theorem branch_blames : Blames tokens (Located tokens) (branch settings rules) := by
  refine advance_blames.bind fun _ => (expression_blames blame settings).bind fun condition => ?_
  refine (blockExpr_blames blame settings).bind fun yes => (accept_blames _).bind fun more => ?_
  split
  · refine (check_blames _).bind fun again => ?_
    split
    · exact blame.branch.bind fun _ => give fun _ => trivial
    · exact (blockExpr_blames blame settings).bind fun _ => give fun _ => trivial
  · exact give fun _ => trivial

theorem optionalValue_blames : Blames tokens Any (optionalValue settings rules) := by
  have read : ∀ found : Bool, Blames tokens Any
      (if found = true then return none else return some (← expression settings rules)) := by
    intro found
    split
    · exact done _
    · exact (expression_blames blame settings).bind fun _ => done _
  exact (check_blames _).bind fun _ => (check_blames _).bind fun _ => atEnd_blames.bind fun _ => read _

theorem expressionStatement_blames : Blames tokens Any (expressionStatement settings rules) := by
  intro s on
  refine .currentPos ?_
  refine (expression_blames blame settings s on).bind fun e t later _ => .current ?_
  have on := later.trans on
  split
  · next here =>
    dsimp only
    split
    · exact .give trivial
    · refine .currentPos ?_
      split
      · exact (BlamesAt.failAt (State.lexed_of_current here nofun) _ _ _).failed (failAt_fails _ _ _) _
      · exact advance_blames.bind
          (fun _ => (expression_blames blame settings).bind fun _ => done _) t on
  · exact .give trivial

theorem declaration_blames (isConst : Bool) : Blames tokens Any (declaration settings rules isConst) := by
  refine advance_blames.bind fun _ => identifier?_blames.bind fun name => ?_
  cases name with
  | none => exact failUnlessLexed_blames _ _
  | some name =>
    refine advance_blames.bind fun _ => (accept_blames _).bind fun given => ?_
    split
    · have value : Blames tokens Any (some <$> expression settings rules) :=
        (expression_blames blame settings).map fun _ _ => trivial
      exact value.bind fun _ => (declare_blames _).bind fun _ => done _
    · exact (done none).bind fun _ => (declare_blames _).bind fun _ => done _

theorem importStatement_blames : Blames tokens Any (importStatement settings rules) :=
  advance_blames.bind fun _ => (expression_blames blame settings).bind fun _ =>
    (optionalAlias_blames .imported).bind fun _ => done _

theorem whileStatement_blames : Blames tokens Any (whileStatement settings rules) :=
  advance_blames.bind fun _ => (expression_blames blame settings).bind fun _ =>
    (inLoop_blames (blockExpr_blames blame settings)).bind fun _ => done _

theorem loopStatement_blames : Blames tokens Any (loopStatement settings rules) :=
  advance_blames.bind fun _ => (inLoop_blames (blockExpr_blames blame settings)).bind fun _ => done _

theorem forStatement_blames : Blames tokens Any (forStatement settings rules) := by
  refine advance_blames.bind fun _ => identifier?_blames.bind fun name => ?_
  cases name with
  | none => exact unlooked .loop
  | some name =>
    have body : Blames tokens Any (inScope do
        declare name
        inLoop (blockExpr settings rules)) :=
      inScope_blames ((declare_blames _).bind fun _ => inLoop_blames (blockExpr_blames blame settings))
    exact advance_blames.bind fun _ => (expect_blames _ _).bind fun _ =>
      (expression_blames blame settings).bind fun _ => body.bind fun _ => done _

theorem functionDefinition_blames (on : s.rest <:+ tokens) (there : s.current.1 ≠ .eof) (access : Access) :
    BlamesAt tokens Any s (functionDefinition settings rules access) := by
  refine .take on there fun t later took => ?_
  have on := later.trans on
  refine (functionName_blames t on).bind fun name u later _ => ?_
  have on := later.trans on
  have took := took.later later
  refine (advance_blames u on).bind fun _ v later _ => ?_
  have on := later.trans on
  have took := took.later later
  refine (accept_blames _ v on).bind fun opened w later _ => ?_
  have on := later.trans on
  have took := took.later later
  dsimp only
  split
  · exact (unlooked (.params name)).failed (fail_fails _ _) _ w on
  · refine (remaining_blames w on).bind fun n x later _ => ?_
    have on := later.trans on
    have took := took.later later
    refine (functionParams_blames name _ _ x on).bind fun params y later _ => .get ?_
    have on := later.trans on
    have took := took.later later
    split
    · exact (BlamesAt.taken (.definition name params.length) took).failed (failAt_fails _ _ _) _
    · refine (check_blames _).bind (fun opened => ?_) y on
      split
      · exact (unlooked (.body name)).failed (fail_fails _ _) _
      · exact (inBody_blames (block_blames blame settings) _).bind fun _ => define_blames _

theorem definition_blames (on : s.rest <:+ tokens)
    (word : s.current.1 = .symbol .kwFn ∨ s.current.1 = .symbol .kwPrivate) (isGlobal : Bool) :
    BlamesAt tokens Any s (definition settings rules isGlobal) := by
  have lexed : s.Lexed := word.elim (State.lexed_of_current · nofun) (State.lexed_of_current · nofun)
  unfold definition
  dsimp only
  split
  · exact (BlamesAt.fail lexed _ _).failed (fail_fails _ _) _
  · refine .accept on (fun t on => ?_) fun exposed => ?_
    · rw [if_pos rfl]
      refine .check (fun here => ?_) fun _ => ?_
      · exact functionDefinition_blames blame settings on (by rw [here]; nofun) .hidden
      · exact (unlooked .definition).failed (fail_fails _ _) _ t on
    · have here := word.resolve_right exposed
      exact functionDefinition_blames blame settings on (by rw [here]; nofun) .exposed

theorem statement_blames (isGlobal : Bool) : Blames tokens Any (statement settings rules isGlobal) := by
  have lexed : ∀ {s : State} {symbol : Symbol}, s.current.1 = .symbol symbol → s.Lexed :=
    fun here => State.lexed_of_current here nofun
  have one {s : State} {p : Parse Stmt} (h : BlamesAt tokens Any s p) :
      BlamesAt tokens Any s (some <$> p) := by
    rw [map_eq_pure_bind]
    exact h.bind fun _ _ _ _ => .give trivial
  intro s on
  refine .currentPos (.current ?_)
  split
  · exact done _ s on
  · exact (blockExpr_blames blame settings).bind (fun _ => done _) s on
  · exact (branch_blames blame settings).bind (fun _ => done _) s on
  · exact one (whileStatement_blames blame settings s on)
  · exact one (loopStatement_blames blame settings s on)
  · exact one (forStatement_blames blame settings s on)
  · next here => exact one (loopControl_blames on (lexed here) _ _)
  · next here => exact one (loopControl_blames on (lexed here) _ _)
  · exact advance_blames.bind (fun _ => (optionalValue_blames blame settings).bind fun _ => done _) s on
  · exact advance_blames.bind (fun _ => (optionalValue_blames blame settings).bind fun _ => done _) s on
  · exact one (declaration_blames blame settings false s on)
  · exact one (declaration_blames blame settings true s on)
  · exact one (importStatement_blames blame settings s on)
  · next here =>
    dsimp only
    split
    · exact (BlamesAt.fail (lexed here) _ _).failed (fail_fails _ _) _
    · exact one (exportStatement_blames s on)
  · next here => exact (definition_blames blame settings on (.inl here) isGlobal).bind fun _ _ _ _ => .give trivial
  · next here => exact (definition_blames blame settings on (.inr here) isGlobal).bind fun _ _ _ _ => .give trivial
  · exact one (expressionStatement_blames blame settings s on)

theorem topStatements_blames (n : Nat) (found : List Stmt) :
    Blames tokens Any (topStatements settings rules n found) := by
  induction n generalizing found with
  | zero => exact stop
  | succ n ih =>
    refine atEnd_blames.bind fun ended => ?_
    split
    · exact done _
    · refine (statement_blames blame settings true).bind fun stmt => ?_
      refine (statementEnd_blames _ _).bind fun finished => ?_
      dsimp only
      split
      · exact done _
      · exact ih _

end

theorem rulesAt_blame (tokens : List PlacedToken) (settings : Settings) (n : Nat) :
    (rulesAt settings n).Blame tokens := by
  induction n with
  | zero => exact ⟨stop, stop, stop, stop, stop⟩
  | succ n ih =>
    exact ⟨expression_blames ih settings, unary_blames ih settings, statement_blames ih settings false,
      block_blames ih settings, branch_blames ih settings⟩

theorem whole_blames (settings : Settings) (asExpression : Bool) :
    Blames tokens Any (whole settings asExpression) := by
  unfold whole
  split
  · refine currentPos_blames.bind fun pos => remaining_blames.bind fun n => ?_
    refine (expression_blames (rulesAt_blame tokens settings _) settings).bind fun e => ?_
    refine atEnd_blames.bind fun ended => ?_
    dsimp only
    split
    · exact unexpected_blames.failed unexpected_fails _
    · exact get_blames.bind fun _ => done _
  · refine remaining_blames.bind fun n => ?_
    refine (topStatements_blames (rulesAt_blame tokens settings _) settings _ _).bind fun ss => ?_
    exact get_blames.bind fun _ => done _

theorem parse_error {settings : Settings} {asExpression : Bool} {nextClosure : Nat} {stop : Stop}
    (h : (parse settings asExpression tokens nextClosure).1 = .error stop) :
    ∃ t, whole settings asExpression (State.start tokens nextClosure) = .error stop t := by
  unfold parse at h
  dsimp only at h
  split at h
  · cases h
  · next stopped =>
    cases h
    exact ⟨_, stopped⟩

/-- Reading a script stops with an error in some state. If a fault in the characters comes next in this
state, the error is the one of this fault: bad input, its message and its place. Other errors there
are the one of the depth limit, those about a token that has been taken, with the place of this token,
and those of the rules that do not look at what comes instead of what is missing. -/
theorem failure_at_fault {engine : Engine} {asExpression : Bool} {pieces : List Text} {nextClosure : Nat}
    {e : Error} (failed : (engine.compile asExpression pieces nextClosure).1 = .error (.fault e)) :
    ∃ s, whole (engine.settings asExpression) asExpression
        (State.start (engine.dialect.tokens pieces) nextClosure) = .error (.fault e) s ∧
      ∀ fault pos, s.current = (.fault fault, pos) →
        Reports (Took (State.start (engine.dialect.tokens pieces) nextClosure).rest s.rest) fault pos e := by
  obtain ⟨s, stopped⟩ := parse_error failed
  exact ⟨s, stopped, (whole_blames _ asExpression _ (List.suffix_refl _)).explained e s stopped⟩

/-- In `let @` the sign stands where the name of a variable is missing, and is what the error is about. -/
theorem failure_at_fault_let :
    (Engine.raw.compile false [Text.lit "let @"] 0).1 =
      .error (.fault ⟨.parsing (some .badInput) (Text.lit "'@' is a reserved symbol"), ⟨1, 5⟩⟩) ∧
    ∃ s fault, whole (Engine.raw.settings false) false
        (State.start (Engine.raw.dialect.tokens [Text.lit "let @"]) 0) = .error (.fault
          ⟨.parsing (some .badInput) (Text.lit "'@' is a reserved symbol"), ⟨1, 5⟩⟩) s ∧
      s.current = (.fault fault, ⟨1, 5⟩) ∧
      Reports (Took (State.start (Engine.raw.dialect.tokens [Text.lit "let @"]) 0).rest s.rest) fault ⟨1, 5⟩
        ⟨.parsing (some .badInput) (Text.lit "'@' is a reserved symbol"), ⟨1, 5⟩⟩ := by
  have failed : (Engine.raw.compile false [Text.lit "let @"] 0).1 =
      .error (.fault ⟨.parsing (some .badInput) (Text.lit "'@' is a reserved symbol"), ⟨1, 5⟩⟩) := by with_unfolding_all rfl
  obtain ⟨s, stopped, reports⟩ := failure_at_fault failed
  have after : whole (Engine.raw.settings false) false
      (State.start (Engine.raw.dialect.tokens [Text.lit "let @"]) 0) = .error (.fault
        ⟨.parsing (some .badInput) (Text.lit "'@' is a reserved symbol"), ⟨1, 5⟩⟩)
      { rest := [(.fault ⟨.improperSymbol, Text.lit "'@' is a reserved symbol", 0⟩, ⟨1, 5⟩)],
        endPos := ⟨1, 6⟩, nextClosure := 0 } := by with_unfolding_all rfl
  cases stopped.symm.trans after
  exact ⟨failed, _, _, stopped, rfl, reports _ _ rfl⟩

/-- A repeated parameter is reported although a fault comes next. -/
theorem repeated_parameter_hides_fault :
    ∃ s fault e, whole (Engine.raw.settings false) false
        (State.start (Engine.raw.dialect.tokens [Text.lit "fn f(a, a @) \x7b\x7d"]) 0) =
          .error (.fault e) s ∧
      s.current = (.fault fault, ⟨1, 11⟩) ∧ e ≠ lexicalError fault ⟨1, 11⟩ ∧
      e = ⟨.parsing (some .fnDuplicatedParam)
        (Text.lit "Duplicated parameter 'a' for function 'f'"), ⟨1, 9⟩⟩ := by
  refine ⟨{
    rest := [(.fault ⟨.improperSymbol, Text.lit "'@' is a reserved symbol", 0⟩, ⟨1, 11⟩),
      (.symbol .rightParen, ⟨1, 12⟩), (.symbol .leftBrace, ⟨1, 14⟩), (.symbol .rightBrace, ⟨1, 15⟩)],
    endPos := ⟨1, 16⟩, nextClosure := 0 }, _, _, by with_unfolding_all rfl, rfl, ?_, rfl⟩
  intro same
  cases same

end Scripting.Grammar
