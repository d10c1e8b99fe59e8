import Scripting.Proofs.Code
import Scripting.Proofs.Parsing.Within

/-
Ledgers of what has been read. The rules of the grammar only put together what others have read, so
whatever is to be shown of it comes down to how a ledger writes down code, names, scopes and loops, to
the few things that change the state of a parse, and to what the parser sees to when it puts code
together. A ledger that survives these is carried on by all rules.
-/
namespace Scripting

def Expr.IsNumber : Expr → Prop
  | .int .. | .float .. => True
  | _ => False

def Expr.Assignable : Expr → Prop
  | .var _ _ path => path = []
  | .this _ | .index .. | .property .. => True
  | _ => False

namespace Grammar

/-- How a ledger writes down what has been read: code, the names that are used and declared, and what
has been read in a scope or in a loop of its own. -/
structure Shorthand where
  Note : Type
  code : Code → List Note
  used : Text → List Note
  declared : Text → List Note
  scope : List Note → List Note
  turn : List Note → List Note

namespace Shorthand

variable (S : Shorthand)

def expr (e : Expr) : List S.Note := S.code (.expr e)

def exprs (es : List Expr) : List S.Note := es.flatMap S.expr

def entries (es : List (Text × Expr)) : List S.Note := es.flatMap fun e => S.expr e.2

def stmts (ss : List Stmt) : List S.Note := ss.flatMap fun s => S.code (.stmt s)

/-- Only at the top level of a script is an export a statement, of which nothing stays but its names. -/
def placed (isGlobal : Bool) : Stmt → List S.Note
  | .exportNames pos names =>
    if isGlobal then names.flatMap fun n => S.used n.1 else S.code (.stmt (.exportNames pos names))
  | s => S.code (.stmt s)

/-- What has been read, in this order, when code is put together. Closures have been read in a body of
their own. -/
def made : Code → List S.Note
  | .expr (.var _ name []) => S.used name
  | .expr (.array _ items) => S.exprs items
  | .expr (.map _ entries) => S.entries entries
  | .expr (.call _ _ _ args _) => S.exprs args
  | .expr (.method _ object _ args) => S.expr object ++ S.exprs args
  | .expr (.property _ object _) => S.expr object
  | .expr (.index _ object index) => S.expr object ++ S.expr index
  | .expr (.logical _ _ left right) => S.expr left ++ S.expr right
  | .expr (.member _ left right) => S.expr left ++ S.expr right
  | .expr (.block _ body) => S.scope (S.stmts body)
  | .expr (.branch _ condition yes no) => S.expr condition ++ (S.expr yes ++ S.exprs no.toList)
  | .expr _ => []
  | .stmt (.expr _ e) => S.expr e
  | .stmt (.declare _ _ name value) => S.exprs value.toList ++ S.declared name
  | .stmt (.assign _ _ target value) => S.expr target ++ S.expr value
  | .stmt (.loop _ condition body) => S.exprs condition.toList ++ S.turn (S.expr body)
  | .stmt (.each _ name items body) =>
    S.expr items ++ S.scope (S.declared name ++ S.turn (S.expr body))
  | .stmt (.returnValue _ value) => S.exprs value.toList
  | .stmt (.throwValue _ value) => S.exprs value.toList
  | .stmt (.importModule _ path _) => S.expr path
  | .stmt _ => []

end Shorthand

/-- Code as such, with a mark on what has been read in a loop of its own. -/
def outline : Shorthand where
  Note := Bool × Code
  code c := [(false, c)]
  used _ := []
  declared _ := []
  scope notes := notes
  turn notes := notes.map fun note => (true, note.2)

theorem outline_exprs (es : List Expr) : outline.exprs es = (es.map Code.expr).map fun c => (false, c) := by
  rw [List.map_map]
  exact List.map_eq_flatMap.symm

theorem outline_entries (es : List (Text × Expr)) :
    outline.entries es = (es.map fun e => Code.expr e.2).map fun c => (false, c) := by
  rw [List.map_map]
  exact List.map_eq_flatMap.symm

theorem outline_stmts (ss : List Stmt) :
    outline.stmts ss = (ss.map Code.stmt).map fun c => (false, c) := by
  rw [List.map_map]
  exact List.map_eq_flatMap.symm

/-- What has been read when code is put together are its parts, and in a loop what it repeats. -/
theorem outline_made (c : Code) :
    outline.made c = c.parts.map (fun p => (false, p)) ++ c.turns.map fun p => (true, p) := by
  have plain {notes : List (Bool × Code)} {ps : List Code} (h : notes = ps.map fun p => (false, p)) :
      notes = ps.map (fun p => (false, p)) ++ [] := by rw [h, List.append_nil]
  cases c with
  | expr e =>
    cases e with
    | var pos name path => cases path <;> rfl
    | array pos items => exact plain (outline_exprs items)
    | map pos entries => exact plain (outline_entries entries)
    | call pos name path args => exact plain (outline_exprs args)
    | method pos object name args => exact plain (congrArg _ (outline_exprs args))
    | block pos body => exact plain (outline_stmts body)
    | branch pos condition yes no =>
      have both : outline.exprs no.toList = _ := outline_exprs no.toList
      exact plain (congrArg (fun notes => outline.expr condition ++ (outline.expr yes ++ notes)) both)
    | _ => rfl
  | stmt s =>
    cases s with
    | declare pos isConst name value => exact congrArg (· ++ []) (outline_exprs value.toList)
    | loop pos condition body => exact congrArg (· ++ _) (outline_exprs condition.toList)
    | returnValue pos value => exact plain (outline_exprs value.toList)
    | throwValue pos value => exact plain (outline_exprs value.toList)
    | _ => rfl

/-- What the parser sees to when it puts an expression together as an operand or around operands. -/
def Builds (settings : Settings) (literals : Token → Prop) (s : State) : Expr → Prop
  | .string _ t => literals (.string t)
  | .char _ c => literals (.char c)
  | .this _ => s.body.allowThis = true
  | .map _ entries => (entries.map (·.1)).Nodup
  | .index _ _ index => MayIndex index
  | .block .. => settings.allowBlock = true
  | .branch .. | .closure .. => False
  | _ => True

/-- What it sees to when it puts a statement together, or the blocks and branches of one. -/
def Completes (s : State) : Code → Prop
  | .expr (.block ..) | .expr (.branch ..) => True
  | .expr _ => False
  | .stmt (.assign _ _ target _) => target.Assignable
  | .stmt (.breakLoop _) | .stmt (.continueLoop _) => 0 < s.body.loopDepth
  | .stmt (.exportNames ..) => False
  | .stmt _ => True

def Carries {ι Note : Type} (holds : ι → State → List Note → Prop) {α : Type} (before : List Note)
    (p : Parse α) (after : α → List Note) : Prop :=
  ∀ i s a t, holds i s before → p s = .ok a t → holds i t (after a)

/-- What holds of a state that has read what is written down, for each way in which it may have been
begun. -/
structure Ledger (settings : Settings) extends Shorthand where
  ι : Type
  holds : ι → State → List Note → Prop
  literals : Token → Prop
  known : ∀ {i s notes}, holds i s notes → ∀ token ∈ s.rest, literals token.1
  skip : ∀ {i} {s t : State} {notes}, s.Skips t → holds i s notes → holds i t notes
  sink : ∀ {i} {s : State} {notes} depth, holds i s notes → holds i { s with depth := depth } notes
  use : ∀ x before, Carries holds before (use x) fun _ => before ++ used x
  declare : ∀ x before, Carries holds before (declare x) fun _ => before ++ declared x
  inScope : ∀ {α : Type} {p : Parse α} {inside : α → List Note}, Carries holds [] p inside →
    ∀ before, Carries holds before (inScope p) fun a => before ++ scope (inside a)
  inLoop : ∀ {α : Type} {p : Parse α} {inside : α → List Note}, Carries holds [] p inside →
    ∀ before, Carries holds before (inLoop p) fun a => before ++ turn (inside a)
  number : ∀ {i s before e}, e.IsNumber → holds i s (before ++ code (.expr e)) → holds i s before
  builds : ∀ {i s before e}, Builds settings literals s e →
    holds i s (before ++ toShorthand.made (.expr e)) → holds i s (before ++ code (.expr e))

namespace Ledger

variable {settings : Settings} (L : Ledger settings)

abbrev CarriesExpr (before : List L.Note) (p : Parse Expr) : Prop :=
  Carries L.holds before p fun e => before ++ L.expr e

abbrev CarriesStmt (isGlobal : Bool) (before : List L.Note) (p : Parse Stmt) : Prop :=
  Carries L.holds before p fun s => before ++ L.placed isGlobal s

/-- The parts of the grammar that expressions are read with. What the settings rule out need not be
accounted for. -/
structure Covers (rules : Rules) : Prop where
  expression : ∀ before, L.CarriesExpr before rules.expression
  unary : ∀ before, L.CarriesExpr before rules.unary
  block : settings.allowBlock = true → ∀ before,
    Carries L.holds before rules.block fun b => before ++ L.scope (L.stmts b.2)
  branch : settings.allowBranch = true → ∀ before, L.CarriesExpr before rules.branch
  closure : settings.allowClosures = true → ∀ before, L.CarriesExpr before (closure rules)

structure Kept (rules : Rules) : Prop where
  known : ∃ n, rules = rulesAt settings n
  expression : ∀ before, L.CarriesExpr before rules.expression
  unary : ∀ before, L.CarriesExpr before rules.unary
  statement : ∀ before, Carries L.holds before rules.statement
    fun s => before ++ L.stmts s.toList
  block : ∀ before, Carries L.holds before rules.block
    fun b => before ++ L.scope (L.stmts b.2)
  branch : ∀ before, L.CarriesExpr before rules.branch

/-- Statements carry the ledger on as well, and so do closures and function definitions, which are read
in a body of their own and leave a function. -/
structure Spans : Prop where
  completes : ∀ {i s before c}, Completes s c → L.holds i s (before ++ L.made c) →
    L.holds i s (before ++ L.code c)
  closure : ∀ {rules : Rules}, L.Kept rules → ∀ before, L.CarriesExpr before (Grammar.closure rules)
  definition : ∀ {rules : Rules}, L.Kept rules →
    ∀ before access, Carries L.holds before (functionDefinition settings rules access) fun _ => before

variable {L}

theorem Kept.covers {rules : Rules} (kept : L.Kept rules) (spans : L.Spans) : L.Covers rules where
  expression := kept.expression
  unary := kept.unary
  block _ := kept.block
  branch _ := kept.branch
  closure _ := spans.closure kept

end Ledger

variable {settings : Settings} {L : Ledger settings} {α β : Type} {before : List L.Note}
  {p : Parse α} {after : α → List L.Note}

namespace Carries

theorem give {a : α} (h : after a = before) : Carries L.holds before (pure a) after := by
  intro i s b t holds eq
  cases eq
  exact h ▸ holds

theorem bindKnown {f : α → Parse β} {later : β → List L.Note} {K : α → Prop}
    (hp : Carries L.holds before p after) (known : ∀ {s a t}, p s = .ok a t → K a)
    (hf : ∀ a, K a → Carries L.holds (after a) (f a) later) :
    Carries L.holds before (p >>= f) later := by
  intro i s b u holds eq
  obtain ⟨a, t, first, second⟩ := bind_cases eq
  exact hf a (known first) i t b u (hp i s a t holds first) second

theorem bind {f : α → Parse β} {later : β → List L.Note} (hp : Carries L.holds before p after)
    (hf : ∀ a, Carries L.holds (after a) (f a) later) : Carries L.holds before (p >>= f) later :=
  hp.bindKnown (K := fun _ => True) (fun _ => trivial) fun a _ => hf a

theorem map {f : α → β} {later : β → List L.Note} (hp : Carries L.holds before p after)
    (same : ∀ a, later (f a) = after a) : Carries L.holds before (f <$> p) later := by
  rw [map_eq_pure_bind]
  exact hp.bind fun a => give (same a)

theorem congr {after' : α → List L.Note} (h : Carries L.holds before p after)
    (same : ∀ a, after' a = after a) : Carries L.holds before p after' := by
  rwa [funext same]

theorem nested (h : Carries L.holds before p after) :
    Carries L.holds before (nested settings p) after := by
  intro i s a t holds eq
  obtain ⟨-, u, read, rfl⟩ := nested_cases eq
  exact L.sink _ (h i _ a u (L.sink _ holds) read)

/-- The next token is the end or one of the literals. -/
theorem currentKnown {f : Token → Parse β} {later : β → List L.Note}
    (hf : ∀ token, token = .eof ∨ L.literals token → Carries L.holds before (f token) later) :
    Carries L.holds before (current >>= f) later := by
  intro i s b t holds eq
  refine hf s.current.1 ?_ i s b t holds eq
  unfold State.current
  cases rest : s.rest with
  | nil => exact .inl rfl
  | cons first more => exact .inr (L.known holds first (rest ▸ List.mem_cons_self))

theorem build {e : Expr} {parts : List L.Note} (made : ∀ s, Builds settings L.literals s e)
    (whole : L.made (.expr e) = parts) :
    Carries L.holds (before ++ parts) (pure e) fun e => before ++ L.expr e := by
  intro i s b t holds eq
  cases eq
  exact L.builds (made s) (whole ▸ holds)

theorem leaf {e : Expr} (made : ∀ s, Builds settings L.literals s e) (none : L.made (.expr e) = []) :
    L.CarriesExpr before (pure e) := by
  have built : Carries L.holds (before ++ []) (pure e) fun e => before ++ L.expr e := build made none
  rwa [List.append_nil] at built

theorem complete (spans : L.Spans) {a : α} {c : Code} {parts : List L.Note}
    (one : after a = before ++ L.code c) (whole : L.made c = parts) (done : ∀ s, Completes s c) :
    Carries L.holds (before ++ parts) (pure a) after := by
  intro i s b t holds eq
  cases eq
  exact one ▸ spans.completes (done s) (whole ▸ holds)

end Carries

theorem Fails.carries (h : Fails p) (after : α → List L.Note) : Carries L.holds before p after :=
  fun _ s a t _ eq => (h s a t eq).elim

theorem Quiet.carries (h : Quiet p) : Carries L.holds before p fun _ => before :=
  fun _ s a t holds eq => L.skip (h s a t eq) holds

theorem Quiet.andThen {f : α → Parse β} {after : β → List L.Note} (hp : Quiet p)
    (hf : ∀ a, Carries L.holds before (f a) after) : Carries L.holds before (p >>= f) after :=
  hp.carries.bind hf

theorem useAll_carries (names : List Text) :
    Carries L.holds before (names.forM use) fun _ => before ++ names.flatMap L.used := by
  induction names generalizing before with
  | nil => exact .give (by simp)
  | cons name rest ih =>
    have later := @ih (before ++ L.used name)
    exact (L.use name before).bind fun _ => later.congr (by simp)

end Grammar

end Scripting
