import Scripting.Eval
import Scripting.Proofs.Contract.Import

/-
Evaluation as a whole, side by side with a watched one. A watch looks at the machine whenever an
expression, a statement or a call begins or ends, and can stop the run there. A watch that has
nothing to say about the machines of a contract never shows.
-/
namespace Scripting

def watched {σ α : Type} (w : σ → Option Halt) (k : EStateM Halt σ α) : EStateM Halt σ α := fun s =>
  match w s with
  | some h => .error h s
  | none =>
    match k s with
    | .ok a t =>
      match w t with
      | some h => .error h t
      | none => .ok a t
    | .error e t => .error ((w t).getD e) t

@[simp]
theorem watched_none {σ α : Type} (k : EStateM Halt σ α) : watched (fun _ => none) k = k := by
  funext s
  unfold watched
  cases eq : k s with
  | ok a t => simp
  | error e t => simp

/-- A watch that is silent at both ends does not show. -/
theorem Agree.watched {σ α : Type} {excused : Halt → Prop} {good : α → σ → Prop}
    {bad : Halt → σ → Prop} {r : EStateM.Result Halt σ α} {k : EStateM Halt σ α} {s : σ}
    {w : σ → Option Halt} (h : Agree excused good bad r (k s)) (start : w s = none)
    (hgood : ∀ a t, good a t → w t = none) (hbad : ∀ e t, bad e t → w t = none) :
    Agree excused good bad r (watched w k s) := by
  unfold Scripting.watched
  rw [start]
  dsimp only
  generalize k s = r' at h ⊢
  cases h with
  | ok h =>
    dsimp only
    rw [hgood _ _ h]
    exact .ok h
  | error h =>
    dsimp only
    rw [hbad _ _ h]
    exact .error h
  | excused h => exact .excused h

namespace Eval

section

variable (engine : Engine) (w : Machine → Option Halt)

mutual

def watchEval : Nat → Expr → Run Value
  | 0, _ => throw .outOfFuel
  | n + 1, e => watched w (evalExpr engine
      ⟨n, Native.apply engine.arithmetic n, watchEval n, watchExec n, watchCall n⟩ e)

def watchExec : Nat → Stmt → Run Value
  | 0, _ => throw .outOfFuel
  | n + 1, stmt => watched w (execStmt engine
      ⟨n, Native.apply engine.arithmetic n, watchEval n, watchExec n, watchCall n⟩ stmt)

def watchCall : Nat → Text → List Value → Bool → Position → Held (Option Value) Value
  | 0, _, _, _, _ => throw .outOfFuel
  | n + 1, name, args, exposedOnly, pos =>
    watched (fun s => w s.2)
      (callNamed engine ⟨n, Native.apply engine.arithmetic n, watchEval n, watchExec n, watchCall n⟩
        name args exposedOnly pos)

end

/-- Evaluation under a watch. -/
def watching (fuel : Nat) : Evaluator :=
  ⟨fuel, Native.apply engine.arithmetic fuel, watchEval engine w fuel, watchExec engine w fuel,
    watchCall engine w fuel⟩

end

theorem watching_none (engine : Engine) (fuel : Nat) :
    watching engine (fun _ => none) fuel = evaluator engine fuel := by
  induction fuel with
  | zero => rfl
  | succ n ih =>
    unfold watching evaluator at ih ⊢
    congr 1
    · funext e
      rw [watchEval, evalAt, ih, watched_none]
    · funext stmt
      rw [watchExec, execAt, ih, watched_none]
    · funext name args exposedOnly pos
      rw [watchCall, callNamedAt, ih, watched_none]

variable {engine : Engine} {C : Contract engine} {ev ev' : Evaluator}

open Contract

/-- What a contract says of two evaluations. A statement may leave variables and imports behind. -/
def charter (hev : C.Evaluators ev ev') : Charter engine where
  Side := Bool
  Level := Unit
  order := PUnit.instLinearOrder.toPreorder
  Way := Unit
  turn := id
  plain _ := C.kind.plain
  Does x _ Q k := C.Within x (Q ()) (k false) (k true)
  Works _ Q k := C.Holds C.kind.plain (Q ()) (k false) (k true)
  grow _ h := h
  give h := Within.of_keeps (Keeps.give (h () le_rfl))
  fail cause pos := Within.of_keeps (Keeps.fail cause pos)
  bind hk hf := Within.bind hk fun a ha => hf () a le_rfl ha
  raise h _ := h
  loose h := Within.of_keeps h
  opened h := Keeps.grows h
  block h := Grows.block h
  loopTurn h := loopTurn_keeps h
  openTurn h := loopTurn_grows h
  returning h := Keeps.stop fun v eq => by cases eq; exact h
  giveHeld h := Holds.give (h () le_rfl)
  failHeld _ _ := Holds.stop (signal_of_fault rfl)
  bindHeld hk hf := Holds.bind hk fun a ha => hf () a le_rfl ha
  raiseHeld h _ := h
  held := Holds.held
  setHeld h := Holds.setHeld h
  lift h := Holds.lift h
  drop h hv := Holds.drop h hv
  zoom h hpart hrestore := Holds.zoom h hpart fun p v hp hv => hrestore () p v le_rfl hp hv
  behind name pos h := Holds.behind h name pos
  mode side := if side then C.mode else engine.arithmetic
  ev side := if side then ev' else ev
  admits _ _ := True
  parts _ _ _ := trivial
  turns _ _ _ := trivial
  room := True
  roomy _ := Or.inr trivial
  breaking _ := Keeps.stop fun v eq => by cases eq
  continuing _ := Keeps.stop fun v eq => by cases eq
  atom h _ := C.kind.leaf _ (Value.isLeaf_of_isAtom h)
  stringLiteral _ := C.kind.plain_string _
  charLiteral _ := C.kind.plain_char _
  typeName _ := C.kind.plain_string _
  text _ _ := C.kind.plain_string _
  items h := (C.kind.array _).mp h
  set i h hv := C.kind.plain_set h i hv
  entry h found := C.kind.plain_entry h found
  insert h hv _ := C.kind.plain_insert h _ hv
  curry h hvs := (C.kind.fn _ _).mpr (passing_curry h (Plain.passing hvs))
  collected _ found := C.kind.plain (.map found)
  nothing := (C.kind.map []).mpr (by simp)
  collect _ _ _ found hv := C.kind.plain_insert found _ hv
  collected_grow _ h := h
  reachable _ m := m.Fair C.kind
  reachable_grow _ h := h
  callable _ t := t.library.Fair C.kind
  callable_grow _ h := h
  exposed fair _ := fair
  eval _ := hev.eval _
  runBlock _ := runBlock_keeps hev _
  flatten h := flatten_keeps hev (Stock.passes_of_plain h)
  typeOf _ := typeOf_keeps hev _
  displayText _ := displayText_keeps hev _
  debugText _ := debugText_keeps hev _
  say := say_keeps
  checkSize := checkSize_keeps
  checkHeld v pos := Holds.look (checkSize_faults v pos) fun _ _ => trivial
  checkArray pos h := (checkSize_keeps _ pos).imp fun _ _ => (C.kind.array _).mpr h
  checkMap pos h := (checkSize_keeps _ pos).imp fun _ _ => h
  scriptFn? := scriptFn?_keeps
  findModule := findModule_keeps
  resolve := resolve_keeps hev
  callScript pos h hvs := (callScript_holds hev h (Plain.passing hvs) pos).drop object_none
  callNative name pos fair own hvs :=
    (callNative_holds hev receiver_passing (fair.functions _ own) name false pos).drop
      (Plain.passing hvs).args
  callPointer pos h hvs :=
    (hev.call _ _ false pos (passing_curry h (Plain.passing hvs))).drop object_none
  callOn pos hv h hvs := asThis_holds (hev.call _ _ false pos (passing_curry h (Plain.passing hvs))) hv
  callMethod name pos hvs := callMethod_holds hev name (Plain.passing hvs) pos
  tryMethod name pos hvs := tryMethod_holds hev name (Plain.passing hvs) pos
  tryNative name pos hvs :=
    (tryNative_holds hev receiver_passing name false pos).drop (Plain.passing hvs).args
  callByValue name pos hvs := callByValue_keeps hev name (Plain.passing hvs) pos
  readVariable := readVariable_keeps hev
  readThis := readThis_keeps hev
  isSharedVariable := isSharedVariable_keeps
  make := make_keeps
  closure _ := closure_keeps _ _ _
  atVariable name forWrite pos h := atVariable_keeps hev h name forWrite pos
  tryOnVariable name varPos variableName pos hvs :=
    tryOnVariable_keeps hev name varPos variableName (Plain.passing hvs) pos
  onThis pos h := onThis_keeps h pos
  declare name isConst h := Grows.change fun _ hm => step_declare hm name (Stock.passes_of_plain h) isConst
  execExport _ := execExport_keeps _ _
  bindImport asName fair := bindImport_grows asName fair

theorem evalExpr_keeps (hev : C.Evaluators ev ev') (e : Expr) :
    C.Keeps C.kind.plain (evalExpr engine ev e) (evalExpr (engine.inMode C.mode) ev' e) :=
  (charter hev).evalExpr_after (l := ()) (w := ())
    (P := fun k => C.Keeps C.kind.plain (k false) (k true)) trivial
    fun _ hk => Keeps.bind (tick_keeps e.pos) fun _ _ => hk

section

variable (hev : C.Evaluators ev ev')
include hev

theorem execDeclare_leaves (pos : Position) (isConst : Bool) (name : Text) (value : Option Expr) :
    C.Leaves (C.Effect (.declare pos isConst name value)) (fun _ => True)
      (execDeclare engine ev pos isConst name value)
      (execDeclare (engine.inMode C.mode) ev' pos isConst name value) := by
  have last : ∀ v, C.kind.plain v →
      C.Leaves (C.Effect (.declare pos isConst name value)) (fun _ => True)
        (do let v ← plain ev v
            checkSize engine v pos
            modify fun m => { m with scope := m.scope.push name v isConst })
        (do let v ← plain ev' v
            checkSize (engine.inMode C.mode) v pos
            modify fun m => { m with scope := m.scope.push name v isConst }) := by
    intro v hv
    have flat : C.Keeps C.kind.plain (plain ev v) (plain ev' v) :=
      Charter.plain_does (C := charter hev) (x := .call) (l := ()) hv
    refine Keeps.bind_leaves flat fun w hw => ?_
    refine Keeps.bind_leaves (checkSize_keeps w pos) fun _ _ => ?_
    exact leaves_change fun m _ => ⟨w, hw, rfl⟩
  cases value with
  | some e => exact Keeps.bind_leaves (hev.eval e) last
  | none => exact Keeps.bind_leaves (Keeps.give C.kind.plain_unit) last

theorem execImport_leaves (importPos : Position) (path : Expr) (asName : Option Text) :
    C.Leaves (C.Effect (.importModule importPos path asName)) (fun _ : Unit => True)
      (execImport engine ev path asName) (execImport (engine.inMode C.mode) ev' path asName) := by
  have bindImport : ∀ found, found.Fair C.kind →
      C.Leaves (C.Effect (.importModule importPos path asName)) (fun _ : Unit => True)
        (bindImport asName found) (bindImport asName found) := by
    intro found fair
    cases asName with
    | some name => exact leaves_change fun m _ => ⟨found, fair, rfl⟩
    | none => exact fun m hm => .ok ⟨trivial, m, step_refl hm, rfl⟩
  have refused : ∀ v, C.kind.plain v →
      C.Leaves (C.Effect (.importModule importPos path asName)) (fun _ : Unit => True)
        (mismatch engine ev "string" v path.pos)
        (mismatch (engine.inMode C.mode) ev' "string" v path.pos) := by
    intro v hv m hm
    have never : C.Keeps (fun _ : Unit => False) (mismatch engine ev "string" v path.pos)
        (mismatch (engine.inMode C.mode) ev' "string" v path.pos) :=
      Charter.mismatch_does (C := charter hev) (x := .call) (l := ()) (Q := fun _ _ => False) "string" hv
        path.pos
    exact (never m hm).mono (fun _ _ h => h.2.elim) (fun _ _ h => h)
  refine Keeps.bind_leaves (hev.eval path) fun v hv => ?_
  cases v with
  | string t =>
    refine Keeps.bind_leaves (resolve_keeps hev t path.pos) fun s fair => ?_
    exact bindImport s.supplied fair
  | _ => exact refused _ hv

theorem execStmt_executes (stmt : Stmt) :
    C.Executes stmt (execStmt engine ev stmt) (execStmt (engine.inMode C.mode) ev' stmt) := by
  have spent : ∀ l, (charter hev).Does (.expr ()) l (fun _ (_ : Unit) => True)
      fun _ => throw .outOfFuel := fun _ => Keeps.stop (signal_of_fault rfl)
  have loop : ∀ condition body, C.Keeps (fun _ => True) (repeatWhile ev condition body ev.fuel)
      (repeatWhile ev' condition body ev'.fuel) := by
    intro condition body
    rw [hev.fuel]
    exact Charter.repeatWhile_does (C := charter hev) (l := ()) spent (fun _ _ => trivial) trivial ev.fuel
  by_cases quiet : stmt.isQuiet = true
  · have kept : C.Keeps C.kind.plain (execStmt engine ev stmt)
        (execStmt (engine.inMode C.mode) ev' stmt) := by
      refine (charter hev).execQuiet_after (l := ()) (w := ()) trivial (fun _ _ _ _ => loop _ _)
        (P := fun k => C.Keeps C.kind.plain (k false) (k true)) quiet ?_
      exact fun _ hk => Keeps.bind (tick_keeps stmt.pos) fun _ _ => hk
    exact kept.executes (effect_quiet quiet)
  · unfold execStmt
    rw [Engine.inMode_tick]
    refine Keeps.bind_leaves (tick_keeps stmt.pos) fun _ _ => ?_
    cases stmt with
    | declare pos isConst name value =>
      exact (execDeclare_leaves hev pos isConst name value).give C.kind.plain_unit
    | importModule pos path asName =>
      exact (execImport_leaves hev pos path asName).give C.kind.plain_unit
    | _ => exact absurd rfl quiet

end

/-- A watched evaluation agrees with an unwatched one by the engine itself. -/
theorem evaluators_watching (C : Contract engine) {w : Machine → Option Halt}
    (silent : ∀ m, C.Inv m → w m = none) (fuel : Nat) :
    C.Evaluators (evaluator engine fuel) (watching (engine.inMode C.mode) w fuel) := by
  induction fuel with
  | zero =>
    have spent : C.Signal .outOfFuel := signal_of_fault rfl
    refine ⟨rfl, rfl, rfl, fun e => Keeps.stop spent, fun stmt m hm => ?_,
      fun _ _ _ _ _ => Holds.stop spent⟩
    exact .error ⟨step_refl hm, spent⟩
  | succ n ih =>
    refine ⟨rfl, rfl, rfl, fun e m hm => ?_, fun stmt m hm => ?_,
      fun name args exposedOnly pos hargs => ?_⟩
    · refine (evalExpr_keeps ih e m hm).watched (silent m hm) ?_ ?_
      · exact fun _ n hn => silent n hn.1.2
      · exact fun _ n hn => silent n hn.1.2
    · refine (execStmt_executes ih stmt m hm).watched (silent m hm) ?_ ?_
      · rintro v n ⟨-, o, step, effect⟩
        exact silent n (effect.stride step.2).2
      · exact fun _ n hn => silent n hn.1.2
    · intro this m hm hthis
      have called := callNamed_holds ih name hargs exposedOnly pos this m hm hthis
      refine called.watched (w := fun s => w s.2) (silent m hm) ?_ ?_
      · exact fun _ s hs => silent s.2 hs.2.1.2
      · exact fun _ s hs => silent s.2 hs.2.1.2

theorem evaluators_inMode (C : Contract engine) (fuel : Nat) :
    C.Evaluators (evaluator engine fuel) (evaluator (engine.inMode C.mode) fuel) := by
  rw [← watching_none (engine.inMode C.mode)]
  exact evaluators_watching C (fun _ _ => rfl) fuel

end Eval

end Scripting
