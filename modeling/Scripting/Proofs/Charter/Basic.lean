import Mathlib.Order.Basic
import Scripting.Eval.Import
import Scripting.Proofs.Code
import Scripting.Proofs.Contract.Agree

/-
A charter: what there is to show about the parts that evaluation is made of, so that it holds of
evaluation as a whole. The forms of expressions and statements are gone through once for every charter.
What a charter is about is its own affair: it may look at one run, at two runs side by side, or at many
of them.
-/
namespace Scripting

/-- What a computation may touch: nothing of the frame that it stands in; what an expression may; or
also which variables and imports there are, as a statement may. -/
inductive Extent (Way : Type) where
  | call
  | expr (way : Way)
  | stmt (way : Way)

/-- How runs are judged: by the values that they give, at a level that only grows on the way. A
computation on a held value keeps it plain, and touches nothing of the frame. -/
structure Tenor where
  Side : Type
  Level : Type
  [order : Preorder Level]
  /-- Where in a function code stands. -/
  Way : Type
  turn : Way → Way
  plain : Level → Value → Prop
  Does : {α : Type} → Extent Way → Level → (Level → α → Prop) → (Side → Run α) → Prop
  Works : {α : Type} → Level → (Level → α → Prop) → (Side → Held Value α) → Prop
  grow : ∀ {l l' v}, l ≤ l' → plain l v → plain l' v
  give : ∀ {α e l} {Q : Level → α → Prop} {a}, (∀ l', l ≤ l' → Q l' a) → Does e l Q fun _ => pure a
  fail : ∀ {α e l} {Q : Level → α → Prop} cause pos, Does e l Q fun _ => Run.fail cause pos
  bind : ∀ {α β e l} {Q : Level → α → Prop} {R : Level → β → Prop} {k : Side → Run α}
    {f : Side → α → Run β}, Does e l Q k →
    (∀ l' a, l ≤ l' → Q l' a → Does e l' R fun i => f i a) → Does e l R fun i => k i >>= f i
  raise : ∀ {α e l l'} {Q : Level → α → Prop} {k}, Does e l Q k → l ≤ l' → Does e l' Q k
  loose : ∀ {α e l} {Q : Level → α → Prop} {k}, Does .call l Q k → Does e l Q k
  opened : ∀ {α w l} {Q : Level → α → Prop} {k}, Does (.expr w) l Q k → Does (.stmt w) l Q k
  block : ∀ {α w l} {k : Side → Run α}, Does (.stmt w) l (fun _ _ => True) k →
    Does (.expr w) l (fun _ _ => True) fun i => Run.block (k i)
  loopTurn : ∀ {w l k}, Does (.expr (turn w)) l plain k →
    Does (.expr w) l (fun _ _ => True) fun i => Eval.loopTurn (k i)
  openTurn : ∀ {w l k}, Does (.stmt (turn w)) l plain k →
    Does (.stmt w) l (fun _ _ => True) fun i => Eval.loopTurn (k i)
  returning : ∀ {α w l v} {Q : Level → α → Prop}, plain l v →
    Does (.expr w) l Q fun _ => throw (.returning v)
  giveHeld : ∀ {α l} {Q : Level → α → Prop} {a}, (∀ l', l ≤ l' → Q l' a) → Works l Q fun _ => pure a
  failHeld : ∀ {α l} {Q : Level → α → Prop} cause pos, Works l Q fun _ => throw (.cause cause pos)
  bindHeld : ∀ {α β l} {Q : Level → α → Prop} {R : Level → β → Prop} {k : Side → Held Value α}
    {f : Side → α → Held Value β}, Works l Q k →
    (∀ l' a, l ≤ l' → Q l' a → Works l' R fun i => f i a) → Works l R fun i => k i >>= f i
  raiseHeld : ∀ {α l l'} {Q : Level → α → Prop} {k}, Works l Q k → l ≤ l' → Works l' Q k
  held : ∀ {l}, Works l plain fun _ => Held.held
  setHeld : ∀ {l v}, plain l v → Works l (fun _ _ => True) fun _ => Held.setHeld v
  lift : ∀ {α l} {Q : Level → α → Prop} {k}, Does .call l Q k → Works l Q fun i => Held.lift (k i)
  drop : ∀ {α l v} {Q : Level → α → Prop} {k}, Works l Q k → plain l v →
    Does .call l Q fun i => Held.drop v (k i)
  zoom : ∀ {α l part restore} {Q : Level → α → Prop} {k}, Works l Q k → plain l part →
    (∀ l' p v, l ≤ l' → plain l' p → plain l' v → plain l' (restore p v)) →
    Works l Q fun i => Held.zoom part restore (k i)
  behind : ∀ {α l} {Q : Level → α → Prop} {k} name pos, Works l Q k →
    Works l Q fun i => Held.behind name pos (k i)

attribute [instance] Tenor.order

namespace Tenor

variable (T : Tenor)

def Plain (l : T.Level) (vs : List Value) : Prop := ∀ v ∈ vs, T.plain l v

def Object (l : T.Level) (found : Option Value) : Prop := ∀ v, found = some v → T.plain l v

def Lasting {α : Type} (Q : T.Level → α → Prop) : Prop := ∀ l l' a, l ≤ l' → Q l a → Q l' a

end Tenor

namespace Eval

variable (engine : Engine) (ev : Evaluator)

/-- Read `this`. -/
def readThis (pos : Position) : Run Value := do
  match (← get).this with
  | none => Run.fail (.variableNotFound Reserved.this) pos
  | some v => flatten ev v

def onThis {α : Type} (pos : Position) (k : Held Value α) : Run α := do
  match (← get).this with
  | none => Run.fail (.variableNotFound Reserved.this) pos
  | some v => Run.onThis v (Held.behind Reserved.this pos k)

/-- The native method that works on a variable in place, if there is one; a constant is left alone. -/
def tryOnVariable (name : Text) (varPos : Position) (variableName : Text) (rest : List Value)
    (pos : Position) : Run (Option Value) := do
  match (← get).scope.find? variableName with
  | none => Run.fail (.variableNotFound variableName) varPos
  | some entry =>
    if entry.isConst then return none
    else
      Run.onVariable variableName entry.value
        (Held.behind variableName varPos (tryMethod engine ev name rest pos))

end Eval

/-- A charter of an engine. Between its sides, nothing but the arithmetic may differ. -/
structure Charter (engine : Engine) extends Tenor where
  mode : Side → Arithmetic
  ev : Side → Evaluator
  /-- Which code may stand where. -/
  admits : Way → Code → Prop
  parts : ∀ {w c}, admits w c → ∀ p ∈ c.parts, admits w p
  turns : ∀ {w c}, admits w c → ∀ p ∈ c.turns, admits (turn w) p
  /-- Whether assignments may make maps and strings larger than any check has seen. -/
  room : Prop
  roomy : ∀ {w pos operator target value}, admits w (.stmt (.assign pos operator target value)) →
    target.isPart = false ∨ room
  breaking : ∀ {w l pos} {Q : Level → Value → Prop}, admits w (.stmt (.breakLoop pos)) →
    Does (.expr w) l Q fun _ => throw .breaking
  continuing : ∀ {w l pos} {Q : Level → Value → Prop}, admits w (.stmt (.continueLoop pos)) →
    Does (.expr w) l Q fun _ => throw .continuing
  atom : ∀ {l} {v : Value}, v.isAtom = true → (∀ c, v = .char c → c.toNat < 0x200000) → plain l v
  stringLiteral : ∀ {w l pos t}, admits w (.expr (.string pos t)) → plain l (.string t)
  charLiteral : ∀ {w l pos c}, admits w (.expr (.char pos c)) → plain l (.char c)
  typeName : ∀ {l} t, plain l (.string (engine.typeName t))
  text : ∀ {l} t, room → plain l (.string t)
  items : ∀ {l vs}, plain l (.array vs) → ∀ v ∈ vs, plain l v
  set : ∀ {l vs v} i, plain l (.array vs) → plain l v → plain l (.array (vs.set i v))
  entry : ∀ {l es key v}, plain l (.map es) → Dict.find? key es = some v → plain l v
  insert : ∀ {l es key v}, plain l (.map es) → plain l v →
    (Dict.find? key es).isSome = true ∨ room → plain l (.map (Dict.insert key v es))
  curry : ∀ {l name curry vs}, plain l (.fn name curry) → (∀ v ∈ vs, plain l v) →
    plain l (.fn name (curry ++ vs))
  /-- What is known of the entries of a map literal before their number is checked. -/
  collected : Level → List (Text × Value) → Prop
  nothing : ∀ {l}, collected l []
  collect : ∀ {w l pos es found v}, admits w (.expr (.map pos es)) → ∀ e ∈ es, collected l found →
    plain l v → collected l (Dict.insert e.1 v found)
  collected_grow : ∀ {l l' es}, l ≤ l' → collected l es → collected l' es
  reachable : Level → Module → Prop
  reachable_grow : ∀ {l l' m}, l ≤ l' → reachable l m → reachable l' m
  callable : Level → Eval.Target → Prop
  callable_grow : ∀ {l l' t}, l ≤ l' → callable l t → callable l' t
  exposed : ∀ {l m name arity f}, reachable l m → m.scriptFn? name arity true = some f →
    callable l ⟨f, m⟩
  eval : ∀ {w l e}, admits w (.expr e) → Does (.expr w) l plain fun i => (ev i).eval e
  runBlock : ∀ {w l body}, (∀ s ∈ body, admits w (.stmt s)) →
    Does (.expr w) l plain fun i => Eval.runBlock (ev i) body
  flatten : ∀ {l v}, plain l v → Does .call l plain fun i => Eval.flatten (ev i) v
  typeOf : ∀ {l v}, plain l v → Does .call l (fun _ _ => True) fun i => Eval.typeOf (ev i) v
  displayText : ∀ {l v}, plain l v → Does .call l (fun _ _ => True) fun i => Eval.displayText (ev i) v
  debugText : ∀ {l v}, plain l v → Does .call l (fun _ _ => True) fun i => Eval.debugText (ev i) v
  say : ∀ {l} message, Does .call l (fun _ _ => True) fun _ => Eval.say engine message
  checkSize : ∀ {l} v pos, Does .call l (fun _ _ => True) fun _ => liftM (Eval.checkSize engine v pos)
  checkHeld : ∀ {l} v pos, Works l (fun _ _ => True) fun _ => liftM (Eval.checkSize engine v pos)
  checkArray : ∀ {l vs} pos, (∀ v ∈ vs, plain l v) → Does .call l (fun l' _ => plain l' (.array vs))
    fun _ => liftM (Eval.checkSize engine (.array vs) pos)
  checkMap : ∀ {l es} pos, collected l es → Does .call l (fun l' _ => plain l' (.map es))
    fun _ => liftM (Eval.checkSize engine (.map es) pos)
  scriptFn? : ∀ {l} name arity exposedOnly,
    Does .call l (fun l' found => ∀ t, found = some t → callable l' t)
      fun _ => Eval.scriptFn? name arity exposedOnly
  findModule : ∀ {l} path pos, Does .call l reachable fun _ => Eval.findModule path pos
  resolve : ∀ {w l} path pos, Does (.expr w) l (fun l' found => reachable l' found.supplied)
    fun i => Eval.resolve (engine.inMode (mode i)) (ev i) path pos
  callScript : ∀ {l t vs} pos, callable l t → (∀ v ∈ vs, plain l v) → Does .call l plain
    fun i => Held.drop none (Eval.callScript (engine.inMode (mode i)) (ev i) t vs pos)
  callNative : ∀ {l m f vs} name pos, reachable l m → f ∈ m.functions → (∀ v ∈ vs, plain l v) →
    Does .call l plain
      fun i => Held.drop vs (Eval.callNative (engine.inMode (mode i)) (ev i) f name false pos)
  callPointer : ∀ {l name curry vs} pos, plain l (.fn name curry) → (∀ v ∈ vs, plain l v) →
    Does .call l plain fun i => Eval.callPointer (ev i) name (curry ++ vs) pos
  /-- Call a pointer on an object. -/
  callOn : ∀ {l v name curry vs} pos, plain l v → plain l (.fn name curry) → (∀ v ∈ vs, plain l v) →
    Works l plain fun i => Held.zoom (some v) (fun this v => this.getD v)
      ((ev i).callNamed name (curry ++ vs) false pos)
  callMethod : ∀ {l vs} name pos, (∀ v ∈ vs, plain l v) → Works l plain
    fun i => Eval.callMethod (engine.inMode (mode i)) (ev i) name vs pos
  tryMethod : ∀ {l vs} name pos, (∀ v ∈ vs, plain l v) →
    Works l (fun l' found => ∀ v, found = some v → plain l' v)
      fun i => Eval.tryMethod (engine.inMode (mode i)) (ev i) name vs pos
  tryNative : ∀ {l vs} name pos, (∀ v ∈ vs, plain l v) →
    Does .call l (fun l' found => ∀ v, found = some v → plain l' v)
      fun i => Held.drop vs (Eval.tryNative (engine.inMode (mode i)) (ev i) name false pos)
  callByValue : ∀ {l vs} name pos, (∀ v ∈ vs, plain l v) → Does .call l plain
    fun i => Eval.callByValue (engine.inMode (mode i)) (ev i) name vs pos
  readVariable : ∀ {l} pos name path, Does .call l plain
    fun i => Eval.readVariable (ev i) pos name path
  readThis : ∀ {l} pos, Does .call l plain fun i => Eval.readThis (ev i) pos
  isSharedVariable : ∀ {l} name pos, Does .call l plain fun _ => Eval.isSharedVariable name pos
  make : ∀ {l} name pos, Does .call l plain fun _ => liftM (FnPointer.make name pos)
  closure : ∀ {w l pos function captured}, admits w (.expr (.closure pos function captured)) →
    Does (.expr w) l plain
      fun _ => (do return .fn function (← captured.mapM (Eval.capture pos)) : Run Value)
  atVariable : ∀ {α w l} {Q : Level → α → Prop} {k} name forWrite pos, Works l Q k →
    Does (.expr w) l Q fun i => Eval.atVariable (ev i) name forWrite pos (k i)
  tryOnVariable : ∀ {w l vs} name varPos variableName pos, (∀ v ∈ vs, plain l v) →
    Does (.expr w) l (fun l' found => ∀ v, found = some v → plain l' v)
      fun i => Eval.tryOnVariable (engine.inMode (mode i)) (ev i) name varPos variableName vs pos
  onThis : ∀ {α w l} {Q : Level → α → Prop} {k} pos, Works l Q k →
    Does (.expr w) l Q fun i => Eval.onThis pos (k i)
  declare : ∀ {w l v} name isConst, plain l v → Does (.stmt w) l (fun _ _ => True)
    fun _ => modify fun m => { m with scope := m.scope.push name v isConst }
  execExport : ∀ {w l pos names}, admits w (.stmt (.exportNames pos names)) →
    Does (.expr w) l (fun _ _ => True) fun _ => Eval.execExport pos names
  bindImport : ∀ {w l found} asName, reachable l found →
    Does (.stmt w) l (fun _ _ => True) fun _ => Eval.bindImport asName found

namespace Charter

variable {engine : Engine} (C : Charter engine)

abbrev side (i : C.Side) : Engine := engine.inMode (C.mode i)

variable {C} {α β : Type} {x : Extent C.Way} {l l' : C.Level} {Q : C.Level → α → Prop}

open Eval

theorem plain_nil : C.Plain l [] := fun _ never => by cases never

theorem plain_cons {v : Value} {vs : List Value} (hv : C.plain l v) (h : C.Plain l vs) :
    C.Plain l (v :: vs) := List.forall_mem_cons.mpr ⟨hv, h⟩

theorem plain_grow {vs : List Value} (le : l ≤ l') (h : C.Plain l vs) : C.Plain l' vs :=
  fun v hv => C.grow le (h v hv)

theorem plain_append {vs ws : List Value} (h : C.Plain l vs) (h' : C.Plain l ws) :
    C.Plain l (vs ++ ws) := List.forall_mem_append.mpr ⟨h, h'⟩

theorem plain_tail {v : Value} {vs : List Value} (h : C.Plain l (v :: vs)) : C.Plain l vs :=
  fun w hw => h w (List.mem_cons_of_mem _ hw)

theorem plain_unit : C.plain l .unit := C.atom rfl fun _ never => by cases never

theorem plain_bool (b : Bool) : C.plain l (.bool b) := C.atom rfl fun _ never => by cases never

theorem plain_char {c : CodePoint} (small : c.toNat < 0x200000) : C.plain l (.char c) := by
  refine C.atom rfl fun d same => ?_
  cases same
  exact small

theorem plain_item {vs : List Value} (h : C.plain l (.array vs)) (i : Nat) :
    C.plain l (vs[i]?.getD .unit) := by
  cases found : vs[i]? with
  | none => exact plain_unit
  | some v => exact C.items h v (List.mem_of_getElem? found)

theorem lasting_plain : C.Lasting C.plain := fun _ _ _ le h => C.grow le h

theorem unit_does : C.Does x l C.plain fun _ => pure .unit := C.give fun _ _ => plain_unit

theorem bool_does {b : Bool} : C.Does x l C.plain fun _ => pure (.bool b) :=
  C.give fun _ _ => plain_bool b

theorem mapM_does {γ : Type} {f : C.Side → γ → Run α} {xs : List γ} (lasting : C.Lasting Q)
    (h : ∀ a ∈ xs, C.Does x l Q fun i => f i a) :
    C.Does x l (fun l' as => ∀ a ∈ as, Q l' a) fun i => xs.mapM (f i) := by
  induction xs generalizing l with
  | nil => exact C.give (by simp)
  | cons b rest ih =>
    simp only [List.mapM_cons]
    refine C.bind (h b List.mem_cons_self) fun l₁ a le ha => ?_
    refine C.bind (ih fun c hc => C.raise (h c (List.mem_cons_of_mem _ hc)) le) ?_
    intro l₂ as le₁ has
    refine C.give fun l₃ le₂ => List.forall_mem_cons.mpr ⟨?_, fun b hb => ?_⟩
    · exact lasting _ _ _ (le_trans le₁ le₂) ha
    · exact lasting _ _ _ le₂ (has b hb)

theorem mismatch_does (expected : String) {v : Value} (hv : C.plain l v) (pos : Position) :
    C.Does x l Q fun i => mismatch (C.side i) (C.ev i) expected v pos :=
  C.loose (C.bind (C.typeOf hv) fun _ t _ _ => C.fail (.mismatchedType _ (engine.typeName t)) pos)

theorem plainMismatch_does (expected : String) {v : Value} (hv : C.plain l v) (pos : Position) :
    C.Does x l Q fun i => plainMismatch (C.ev i) expected v pos :=
  C.loose (C.bind (C.typeOf hv) fun _ _ _ _ => C.fail _ pos)

theorem requireBool_does {v : Value} (hv : C.plain l v) (pos : Position) :
    C.Does x l (fun _ _ => True) fun i => requireBool (C.ev i) v pos := by
  have refused : C.Does x l (fun _ (_ : Bool) => True) fun i => plainMismatch (C.ev i) "bool" v pos :=
    plainMismatch_does "bool" hv pos
  cases v with
  | bool b => exact C.give fun _ _ => trivial
  | _ => exact refused

theorem typesOf_does {vs : List Value} (h : C.Plain l vs) :
    C.Does .call l (fun _ _ => True) fun i => typesOf (C.ev i) vs := by
  have each := mapM_does (Q := fun _ _ => True) (fun _ _ _ _ h => h) fun v hv => C.typeOf (h v hv)
  have types : C.Does .call l (fun _ _ => True) fun i => typesOf (C.ev i) vs >>= pure :=
    C.bind each fun _ _ _ _ => C.give fun _ _ => trivial
  simpa only [bind_pure] using types

theorem notFound_does (name : Text) {vs : List Value} (h : C.Plain l vs) (pos : Position) :
    C.Does x l Q fun i => notFound (C.side i) (C.ev i) name vs pos :=
  C.loose (C.bind (typesOf_does h) fun _ types _ _ =>
    C.fail (.functionNotFound (engine.signatureText name types)) pos)

theorem plain_does {v : Value} (hv : C.plain l v) :
    C.Does x l C.plain fun i => Eval.plain (C.ev i) v := by
  unfold Eval.plain
  cases shared : v.isShared with
  | true => exact C.loose (C.flatten hv)
  | false => exact C.give fun _ le => C.grow le hv

end Charter

end Scripting
