import Scripting.Proofs.Charter.Expression

/-
Statements under a charter. Every turn of a loop over items has a variable of its own, which is gone
after it.
-/
namespace Scripting

/-- A statement that leaves the variables and imports of its frame as many as they are. -/
def Stmt.isQuiet : Stmt → Bool
  | .declare .. | .importModule .. => false
  | _ => true

namespace Charter

variable {engine : Engine} {C : Charter engine} {x : Extent C.Way} {w : C.Way} {l : C.Level}

open Eval

theorem optionalValue_does {value : Option Expr}
    (admits : ∀ e, value = some e → C.admits w (.expr e)) :
    C.Does (.expr w) l C.plain fun i => optionalValue (C.ev i) value := by
  cases value with
  | some e => exact C.eval (admits e rfl)
  | none => exact unit_does

theorem execDeclare_does (pos : Position) (isConst : Bool) (name : Text) {value : Option Expr}
    (admits : ∀ e, value = some e → C.admits w (.expr e)) :
    C.Does (.stmt w) l (fun _ _ => True) fun i =>
      execDeclare (C.side i) (C.ev i) pos isConst name value := by
  have last : ∀ l' v, C.plain l' v → C.Does (.stmt w) l' (fun _ _ => True) fun i =>
      (do let v ← Eval.plain (C.ev i) v
          Eval.checkSize (C.side i) v pos
          modify fun m => { m with scope := m.scope.push name v isConst } : Run PUnit) := by
    intro l' v hv
    refine C.bind (plain_does hv) fun l₁ u _ hu => ?_
    refine C.bind (C.loose (C.checkSize u pos)) fun l₂ _ le _ => ?_
    exact C.declare name isConst (C.grow le hu)
  cases value with
  | some e => exact C.bind (C.opened (C.eval (admits e rfl))) fun l₁ v _ hv => last l₁ v hv
  | none => exact C.bind unit_does fun l₁ v _ hv => last l₁ v hv

theorem compound_works (operator : Text) {right : Value} (hright : C.plain l right) (pos : Position) :
    C.Works l (fun _ _ => True) fun i => compound (C.side i) (C.ev i) operator right pos := by
  refine C.bindHeld (C.tryMethod operator pos (plain_cons hright plain_nil)) fun l₁ found le _ => ?_
  cases found with
  | some v => exact C.giveHeld fun _ _ => trivial
  | none =>
    refine C.bindHeld C.held fun l₂ left le' hleft => ?_
    have sides := plain_cons hleft (plain_cons (C.grow (le_trans le le') hright) plain_nil)
    refine C.bindHeld (C.lift (C.callByValue _ pos sides)) fun l₃ v _ hv => ?_
    exact C.bindHeld (C.setHeld hv) fun _ _ _ _ => C.checkHeld v pos

theorem execAssign_does (pos : Position) (operator : Text) {target value : Expr}
    (htarget : C.admits w (.expr target)) (hvalue : C.admits w (.expr value))
    (room : target.isPart = false ∨ C.room) :
    C.Does (.expr w) l (fun _ _ => True) fun i =>
      execAssign (C.side i) (C.ev i) pos operator target value := by
  have written : ∀ {l' k}, C.Works l' (fun _ (_ : Unit) => True) k →
      C.Does (.expr w) l' (fun _ _ => True) fun i =>
        access (C.side i) (C.ev i) target true (k i) :=
    access_does (fun _ _ _ _ h => h) target htarget (room.imp_right Or.inr)
  refine C.bind (C.eval hvalue) fun l₁ v _ hv => ?_
  refine C.bind (plain_does hv) fun l₂ right _ hright => ?_
  cases operator with
  | nil =>
    refine C.bind (C.loose (C.checkSize right pos)) fun l₃ _ le _ => ?_
    exact written (C.setHeld (C.grow le hright))
  | cons byte rest => exact written (compound_works _ hright pos)

/-- One turn of a loop, and then the others. -/
theorem turn_does {condition : Option Expr} {body : Expr}
    (hcondition : ∀ e, condition = some e → C.admits w (.expr e))
    (hbody : C.admits (C.turn w) (.expr body)) {again : C.Side → Run Unit}
    (hagain : ∀ l', C.Does (.expr w) l' (fun _ _ => True) again) :
    C.Does (.expr w) l (fun _ _ => True) fun i =>
      (do let go ← match condition with
            | some e => requireBool (C.ev i) (← (C.ev i).eval e) e.pos
            | none => pure true
          if go then
            if ← Eval.loopTurn ((C.ev i).eval body) then again i : Run Unit) := by
  have turn : ∀ (go : Bool) l', C.Does (.expr w) l' (fun _ _ => True) fun i =>
      (do if go then
            if ← Eval.loopTurn ((C.ev i).eval body) then again i : Run Unit) := by
    intro go l'
    cases go with
    | false => exact C.give fun _ _ => trivial
    | true =>
      refine C.bind (C.loopTurn (C.eval hbody)) fun l₁ next _ _ => ?_
      cases next with
      | true => exact hagain l₁
      | false => exact C.give fun _ _ => trivial
  cases condition with
  | none => exact turn true l
  | some e =>
    refine C.bind (C.eval (hcondition e rfl)) fun l₁ v _ hv => ?_
    exact C.bind (requireBool_does hv e.pos) fun l₂ go _ _ => turn go l₂

theorem repeatWhile_does (spent : ∀ l, C.Does (.expr w) l (fun _ (_ : Unit) => True) fun _ =>
    throw .outOfFuel) {condition : Option Expr} {body : Expr}
    (hcondition : ∀ e, condition = some e → C.admits w (.expr e))
    (hbody : C.admits (C.turn w) (.expr body)) (n : Nat) :
    C.Does (.expr w) l (fun _ _ => True) fun i => repeatWhile (C.ev i) condition body n := by
  induction n generalizing l with
  | zero => exact spent l
  | succ n ih => exact turn_does hcondition hbody fun _ => ih

theorem forEach_does (name : Text) {body : Expr} (hbody : C.admits (C.turn w) (.expr body))
    {items : List Value} (hitems : C.Plain l items) :
    C.Does (.expr w) l (fun _ _ => True) fun i => forEach (C.ev i) name body items := by
  induction items generalizing l with
  | nil => exact C.give fun _ _ => trivial
  | cons v rest ih =>
    have turn : C.Does (.stmt (C.turn w)) l C.plain fun i =>
        (do modify fun m => { m with scope := m.scope.push name v false }
            (C.ev i).eval body : Run Value) :=
      C.bind (C.declare name false (hitems v List.mem_cons_self)) fun _ _ _ _ =>
        C.opened (C.eval hbody)
    refine C.bind (C.block (C.openTurn turn)) fun l₁ next le _ => ?_
    cases next with
    | true => exact ih (plain_grow le (plain_tail hitems))
    | false => exact C.give fun _ _ => trivial

theorem execEach_does (name : Text) {items body : Expr} (hitems : C.admits w (.expr items))
    (hbody : C.admits (C.turn w) (.expr body)) :
    C.Does (.expr w) l (fun _ _ => True) fun i =>
      execEach (C.side i) (C.ev i) name items body := by
  refine C.bind (C.eval hitems) fun l₁ v _ hv => ?_
  have refused : C.Does (.expr w) l₁ (fun _ (_ : Unit) => True) fun i =>
      mismatch (C.side i) (C.ev i) "array or string" v items.pos := mismatch_does _ hv items.pos
  cases v with
  | array values => exact forEach_does name hbody (C.items hv)
  | string t =>
    refine forEach_does name hbody fun u hu => ?_
    obtain ⟨c, mem, rfl⟩ := List.mem_map.mp hu
    exact plain_char (Utf8.decode_small t c mem)
  | _ => exact refused

theorem execImport_does {path : Expr} (admits : C.admits w (.expr path)) (asName : Option Text) :
    C.Does (.stmt w) l (fun _ _ => True) fun i =>
      execImport (C.side i) (C.ev i) path asName := by
  refine C.bind (C.opened (C.eval admits)) fun l₁ v _ hv => ?_
  have refused : C.Does (.stmt w) l₁ (fun _ (_ : Unit) => True) fun i =>
      mismatch (C.side i) (C.ev i) "string" v path.pos := mismatch_does _ hv path.pos
  cases v with
  | string t =>
    refine C.bind (C.opened (C.resolve t path.pos)) fun l₂ found _ reach => ?_
    exact C.bindImport asName reach
  | _ => exact refused

section

variable {stmt : Stmt} (admits : C.admits w (.stmt stmt))
  (loop : ∀ condition body, (∀ e, condition = some e → C.admits w (.expr e)) →
    C.admits (C.turn w) (.expr body) → C.Does (.expr w) l (fun _ _ => True) fun i =>
      repeatWhile (C.ev i) condition body (C.ev i).fuel)
  {P : (C.Side → Run Value) → Prop}
include admits loop

/-- Whatever is true of counting an operation before something that the charter says gives a plain
value is true of a statement. -/
theorem execQuiet_after (quiet : stmt.isQuiet = true) (counted : ∀ k,
    C.Does (.expr w) l C.plain k → P fun i => tick (C.side i) stmt.pos >>= fun _ => k i) :
    P fun i => execStmt (C.side i) (C.ev i) stmt := by
  have then_unit : ∀ {k : C.Side → Run Unit}, C.Does (.expr w) l (fun _ _ => True) k →
      C.Does (.expr w) l C.plain fun i => (do k i; return .unit : Run Value) :=
    fun hk => C.bind hk fun _ _ _ _ => unit_does
  cases stmt with
  | expr pos e => exact counted _ (C.eval (C.parts admits _ (by simp [Code.parts])))
  | declare pos isConst name value => cases quiet
  | assign pos operator target value =>
    refine counted _ (then_unit (execAssign_does pos operator ?_ ?_ (C.roomy admits)))
    · exact C.parts admits _ (by simp [Code.parts])
    · exact C.parts admits _ (by simp [Code.parts])
  | loop pos condition body =>
    refine counted _ (then_unit (loop condition body (fun e eq => ?_) ?_))
    · exact C.parts admits (.expr e) (by simp [Code.parts, eq])
    · exact C.turns admits _ (by simp [Code.turns])
  | each pos name items body =>
    refine counted _ (then_unit (execEach_does name ?_ ?_))
    · exact C.parts admits _ (by simp [Code.parts])
    · exact C.turns admits _ (by simp [Code.turns])
  | breakLoop pos => exact counted _ (C.breaking admits)
  | continueLoop pos => exact counted _ (C.continuing admits)
  | returnValue pos value =>
    refine counted _ (C.bind (optionalValue_does fun e eq => ?_) fun _ v _ hv => C.returning hv)
    exact C.parts admits (.expr e) (by simp [Code.parts, eq])
  | throwValue pos value =>
    have thrown : C.Does (.expr w) l C.plain fun i => optionalValue (C.ev i) value :=
      optionalValue_does fun e eq => C.parts admits (.expr e) (by simp [Code.parts, eq])
    refine counted _ (C.bind thrown fun l₁ v _ hv => ?_)
    have shown : C.Does (.expr w) l₁ C.plain fun i => (do
        let text ← Eval.displayText (C.ev i) v
        Run.fail (.runtime text) pos : Run Value) :=
      C.loose (C.bind (C.displayText hv) fun _ _ _ _ => C.fail _ pos)
    cases v with
    | unit => exact C.fail _ pos
    | _ => exact shown
  | importModule pos path asName => cases quiet
  | exportNames pos names => exact counted _ (then_unit (C.execExport admits))

theorem execStmt_after (counted : ∀ k, C.Does (.stmt w) l C.plain k →
    P fun i => tick (C.side i) stmt.pos >>= fun _ => k i) :
    P fun i => execStmt (C.side i) (C.ev i) stmt := by
  have then_unit : ∀ {k : C.Side → Run Unit}, C.Does (.stmt w) l (fun _ _ => True) k →
      C.Does (.stmt w) l C.plain fun i => (do k i; return .unit : Run Value) :=
    fun hk => C.bind hk fun _ _ _ _ => unit_does
  by_cases quiet : stmt.isQuiet = true
  · exact execQuiet_after admits loop quiet fun k hk => counted k (C.opened hk)
  · cases stmt with
    | declare pos isConst name value =>
      refine counted _ (then_unit (execDeclare_does pos isConst name fun e eq => ?_))
      exact C.parts admits (.expr e) (by simp [Code.parts, eq])
    | importModule pos path asName =>
      refine counted _ (then_unit (execImport_does ?_ asName))
      exact C.parts admits _ (by simp [Code.parts])
    | _ => exact absurd rfl quiet

end

end Charter

end Scripting
