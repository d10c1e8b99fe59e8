import Scripting.Eval
import Scripting.Proofs.Charter.Statement
import Scripting.Proofs.Course.Call

/-
The parts of evaluation, surveyed: variables, `this`, closures, exports and loops. Only closures make
aliases, of the variables that they capture, and only a variable itself can be an alias; then its cell is
written instead.
-/
namespace Scripting.Survey

variable {engine : Engine} {ι : Type} {L : Survey engine ι} {aside : Prop} {ev : ι → Evaluator}

open Eval

theorem capture_goes (pos : Position) (name : Text) :
    L.Goes False (fun v => v.isShared = true) fun _ => capture pos name := by
  intro m hm
  cases found : m.scope.find? name with
  | none =>
    have missing : capture pos name m = Run.fail (.variableNotFound name) pos m := by
      unfold capture
      rw [bind_of_ok (show (get : Run Machine) m = .ok m m from rfl), found]
    simp only [missing]
    exact Goes.fail _ pos m hm
  | some e =>
    have captured : capture pos name m = .ok (m.store.share e.value).2 (m.capture name) := by
      unfold capture
      rw [bind_of_ok (show (get : Run Machine) m = .ok m m from rfl), found]
      simp only [Machine.capture, found]
      rfl
    have onward : m.Onward (m.capture name) := by
      simp only [Machine.capture, found]
      exact m.onward_inside _ _ m.this
    simp only [captured]
    refine Yields.act (a := .capture name) ⟨e, found⟩ rfl onward ?_
    exact .const _ rfl ⟨False.elim, Store.isShared_share m.store e.value⟩

theorem isSharedVariable_goes (name : Text) (pos : Position) :
    L.Goes aside L.plain fun _ => isSharedVariable name pos := by
  apply Goes.get_bind
  intro m hm
  cases m.scope.find? name with
  | none => exact Goes.fail _ pos m hm
  | some e => exact Goes.give (L.course.custody.plain_bool _) m hm

theorem make_goes (name : Text) (pos : Position) :
    L.Goes aside L.plain fun _ => liftM (FnPointer.make name pos) := by
  unfold FnPointer.make
  split
  · exact Goes.give ((L.course.custody.fn name []).mpr (by simp))
  · exact Goes.fail _ pos

theorem plain_curry {name : Text} {curry values : List Value} (h : L.plain (.fn name curry))
    (hvalues : L.Plain values) : L.plain (.fn name (curry ++ values)) :=
  (L.course.custody.fn name _).mpr (carries_curry h hvalues)

/-- The value of a closure carries aliases only if its name lends them. -/
theorem closure_goes (pos : Position) {name : Text} {captured : List Text}
    (lent : captured = [] ∨ L.course.custody.lends name) :
    L.Goes False L.plain fun _ => (do return .fn name (← captured.mapM (capture pos)) : Run Value) := by
  rcases lent with rfl | lends
  · exact Goes.give ((L.course.custody.fn name []).mpr (by simp))
  · apply Goes.bind (Goes.mapM fun x _ => capture_goes pos x)
    intro curry shared
    apply Goes.give
    exact (L.course.custody.fn name curry).mpr fun v hv => Or.inr ⟨shared v hv, lends⟩

section Reading

variable (hev : L.Reads ev)
include hev

theorem flattened_goes {v : Value} (hv : L.passes v) : L.Goes aside L.plain fun i => flatten (ev i) v :=
  (flatten_goes hev hv).imp fun _ h => h.1

theorem readVariable_goes (pos : Position) (name : Text) (path : List Text) :
    L.Goes aside L.plain fun i => readVariable (ev i) pos name path := by
  cases path with
  | nil =>
    apply Goes.get_bind
    intro m hm
    cases found : m.scope.find? name with
    | none => exact Goes.fail _ pos m hm
    | some e =>
      have value : L.passes e.value := hm.tidy.scope e (Scope.mem_of_find? found)
      dsimp only
      generalize e.value = v at value ⊢
      cases v with
      | shared c =>
        refine Goes.get_bind (fun n hn => ?_) m hm
        have content : L.Goes aside L.plain fun _ => liftM (n.store.read c name pos) := by
          apply Goes.look (n.store.read_faults c name pos)
          · unfold Store.read
            split <;> simp [Halt.cause]
          · intro w read
            unfold Store.read at read
            split at read
            · cases read
            · cases read
              exact hn.tidy.world.cells c
        refine Goes.bind content (fun w hw => ?_) n hn
        exact flattened_goes hev (Stock.passes_of_plain hw)
      | _ => exact Goes.give (Stock.plain_of_passes value rfl) m hm
  | cons first rest =>
    intro m hm
    refine At.bind hm (findModule_at (first :: rest) pos) ?_
    intro found n _ hn reaches
    have fair := reaches.fair hn.tidy
    cases value : found.value? name with
    | some v => exact Goes.give (fair.values _ (Dict.mem_of_find? value)) n hn
    | none => exact Goes.fail _ pos n hn

theorem readThis_goes (pos : Position) : L.Goes aside L.plain fun i => readThis (ev i) pos := by
  apply Goes.get_bind
  intro m hm
  cases found : m.this with
  | none => exact Goes.fail _ pos m hm
  | some v => exact flattened_goes hev (Stock.passes_of_plain (hm.tidy.this v found)) m hm

end Reading

theorem callPointer_goes (hev : L.Evaluates ev) (name : Text) {args : List Value}
    (hargs : L.Carries name args) (pos : Position) :
    L.Goes aside L.plain fun i => callPointer (ev i) name args pos := by
  intro m hm
  refine WorksAt.drop (hev.call name args false pos none m hm hargs object_none ?_)
  intro b never
  cases never

theorem callOn_holds (hev : L.Evaluates ev) (name : Text) {args : List Value}
    (hargs : L.Carries name args) {v : Value} (hv : L.plain v) (pos : Position) :
    L.Holds L.plain L.plain fun i => Held.zoom (some v) (fun this v => this.getD v)
      ((ev i).callNamed name args false pos) := by
  intro w m hm hw
  refine (hev.call name args false pos (some v) m hm hargs (object_some hv) ?_).asThis hw
  intro b never
  cases never

theorem tryOnVariable_goes (hev : L.Evaluates ev) (name : Text) (varPos : Position) (variableName : Text)
    {values : List Value} (hvalues : L.Plain values) (pos : Position) :
    L.Goes False L.Object fun i =>
      tryOnVariable engine (ev i) name varPos variableName values pos := by
  apply Goes.get_bind
  intro m hm
  cases found : m.scope.find? variableName with
  | none => exact Goes.fail _ varPos m hm
  | some e =>
    cases constant : e.isConst with
    | true =>
      simp only [constant, if_true]
      exact Goes.give object_none m hm
    | false =>
      simp only [constant, Bool.false_eq_true, if_false]
      have tried : L.Works m (fun _ => L.Object) fun i => tryMethod engine (ev i) name values pos :=
        (tryMethod_holds hev name hvalues.passing pos).works
      exact (tried.onVariable hm m.onward_refl found constant varPos).now

theorem declare_goes (name : Text) {v : Value} (hv : L.plain v) (isConst : Bool) :
    L.Goes False (fun _ => True) fun _ =>
      (modify fun m => { m with scope := m.scope.push name v isConst } : Run PUnit) :=
  Goes.act (fun _ => .declare name v isConst) (fun _ _ => hv) (fun _ => rfl)
    (fun m _ => m.onward_inside m.store _ m.this) False.elim

theorem execExport_goes (pos : Position) (names : List (Text × Option Text)) :
    L.Goes False (fun _ => True) fun _ => execExport pos names := by
  induction names with
  | nil => exact Goes.give trivial
  | cons entry rest ih =>
    obtain ⟨name, asName⟩ := entry
    apply Goes.get_bind
    intro m hm
    cases m.scope.find? name with
    | none => exact Goes.fail _ pos m hm
    | some e =>
      refine Goes.bind (Goes.act (fun _ => .mark name (some (asName.getD name))) (fun _ _ => trivial)
        (fun _ => rfl) (fun m _ => m.onward_inside m.store _ m.this) False.elim) (fun _ _ => ih) m hm

theorem bindImport_at (asName : Option Text) {found : Module} {m : Machine}
    (reaches : m.Reaches found) : L.At False m (fun _ _ => True) fun _ => bindImport asName found m := by
  cases asName with
  | none => exact At.give trivial
  | some name =>
    refine Yields.act (a := .bind name found) reaches rfl (m.onward_bind (name, found)) ?_
    have done : bindImport (some name) found m =
        .ok () { m with imports := (name, found) :: m.imports } := rfl
    simp only [done]
    exact .const _ rfl ⟨fun _ => rfl, trivial⟩

/-- One turn of a loop, and then all the others; `P` is what is known of a machine after a turn. -/
theorem turn_at (hev : L.Reads ev) {condition : Option Expr} {body : Expr}
    {P : Machine → Prop} {again : ι → Run Unit} {m : Machine} (hm : L.Ready m)
    (hcondition : ∀ e, condition = some e → L.Goes False L.plain fun i => (ev i).eval e)
    (hbody : ∀ n, m.Onward n → L.Ready n → L.Yields n (fun o => o) (fun _ o => P o)
      (fun h o => P o ∧ L.allows h) fun i => (ev i).eval body n)
    (hagain : ∀ n, L.Ready n → P n → L.At False n (fun _ _ => True) fun i => again i n) :
    L.At False m (fun _ _ => True) fun i =>
      (do let go ← match condition with
            | some e => requireBool (ev i) (← (ev i).eval e) e.pos
            | none => pure true
          if go then
            if ← loopTurn ((ev i).eval body) then again i : Run Unit) m := by
  have turn : ∀ (go : Bool) (n : Machine), m.Onward n → L.Ready n →
      L.At False n (fun _ _ => True) fun i =>
        (do if go then
              if ← loopTurn ((ev i).eval body) then again i : Run Unit) n := by
    intro go n onward hn
    cases go with
    | false => exact Goes.give trivial n hn
    | true =>
      have turned : L.Yields n (fun o => o) (fun next o => next = true → P o) (fun h _ => L.allows h)
          fun i => loopTurn ((ev i).eval body) n := by
        refine (hbody n onward hn).map (g := fun out => loopTurn (fun _ => out) n) fun out ends => ?_
        cases out with
        | ok v o => exact ⟨rfl, fun _ => ends⟩
        | error h o =>
          cases h with
          | continuing => exact ⟨rfl, fun _ => ends.1⟩
          | breaking => exact ⟨rfl, fun never => by cases never⟩
          | _ => exact ⟨rfl, ends.2⟩
      refine Yields.bind turned ?_ fun _ _ h => ⟨False.elim, h⟩
      intro next o acts leads known
      cases next with
      | false => exact .const (.ok () o) rfl ⟨False.elim, trivial⟩
      | true =>
        refine (hagain o (hn.leads leads) (known rfl)).mono ?_ ?_
        · exact fun _ _ _ => ⟨False.elim, trivial⟩
        · exact fun _ _ h => ⟨False.elim, h.2⟩
  cases condition with
  | none => exact turn true m m.onward_refl hm
  | some e =>
    refine At.bind hm (hcondition e rfl m hm) fun v n onward hn hv => ?_
    refine At.bind hn (requireBool_goes hev hv e.pos n hn) fun go o onward' ho _ => ?_
    exact turn go o (onward.trans onward') ho

/-! ### From a machine on -/

section Does

variable {α β : Type} {x : Extent Bool} {base m : Machine} {Q : Machine → α → Prop}
  {R : Machine → β → Prop} {k : ι → Run α}

/-- Only calls leave the variables of the frame alone. -/
def isAside : Extent Bool → Prop
  | .call => True
  | _ => False

/-- What comes of a computation in the machines that `base` leads to. -/
def Does (L : Survey engine ι) (x : Extent Bool) (base : Machine) (Q : Machine → α → Prop)
    (k : ι → Run α) : Prop :=
  ∀ m, L.Ready m → base.Onward m → L.At (isAside x) m (Onwards Q) fun i => k i m

theorem Goes.does {P : α → Prop} (h : L.Goes (isAside x) P k) : L.Does x base (fun _ => P) k :=
  fun m hm _ => (h m hm).onwards

namespace Does

theorem give {a : α} (h : ∀ m, base.Onward m → Q m a) : L.Does x base Q fun _ => pure a :=
  fun _ _ onward => At.give fun n later => h n (onward.trans later)

theorem bind {f : ι → α → Run β} (hk : L.Does x base Q k)
    (hf : ∀ m a, base.Onward m → Q m a → L.Does x m R fun i => f i a) :
    L.Does x base R fun i => k i >>= f i :=
  fun m hm onward => At.bind hm (hk m hm onward) fun a n later hn ha =>
    hf n a (onward.trans later) (ha n n.onward_refl) n hn n.onward_refl

theorem loose (h : L.Does .call base Q k) : L.Does x base Q k := by
  intro m hm onward
  refine (h m hm onward).mono ?_ ?_
  · exact fun _ _ hn => ⟨fun _ => hn.1 trivial, hn.2⟩
  · exact fun _ _ hn => ⟨fun _ => hn.1 trivial, hn.2⟩

end Does

theorem Works.bind {k : ι → Held Value α} {f : ι → α → Held Value β} (hk : L.Works base Q k)
    (hf : ∀ m a, base.Onward m → Q m a → L.Works m R fun i => f i a) :
    L.Works base R fun i => k i >>= f i :=
  fun v m hm onward hv => WorksAt.bind hm (hk v m hm onward hv) fun a w n later hn hw ha =>
    hf n a (onward.trans later) (ha n n.onward_refl) w n hn n.onward_refl hw

theorem atVariable_does {k : ι → Held Value α} (hk : L.Works base Q k) (hev : L.Reads ev) (name : Text)
    (forWrite : Bool) (pos : Position) {looping : Bool} :
    L.Does (.expr looping) base Q fun i => atVariable (ev i) name forWrite pos (k i) := by
  intro m hm onward
  apply At.get_bind
  cases found : m.scope.find? name with
  | none => exact At.fail _ pos
  | some e =>
    have value : L.passes e.value := hm.tidy.scope e (Scope.mem_of_find? found)
    cases constant : e.isConst with
    | false =>
      simp only [constant, Bool.false_eq_true, if_false]
      exact hk.onVariable hm onward found constant pos
    | true =>
      simp only [constant, if_true]
      cases forWrite with
      | true => exact At.fail _ pos
      | false =>
        refine At.bind hm (flattened_goes hev value m hm) fun v n later hn hv => ?_
        exact (hk v n hn (onward.trans later) hv).drop

theorem onThis_does {k : ι → Held Value α} (hk : L.Works base Q k) (pos : Position) {looping : Bool} :
    L.Does (.expr looping) base Q fun i => Eval.onThis pos (k i) := by
  intro m hm onward
  apply At.get_bind
  cases found : m.this with
  | none => exact At.fail _ pos
  | some v => exact hk.onThis hm onward found pos

/-- A module that a machine can get at, within the custody. -/
structure Reachable (L : Survey engine ι) (m : Machine) (found : Module) : Prop where
  reaches : m.Reaches found
  fair : found.Fair L.course.custody

theorem Reachable.onward {found : Module} (h : L.Reachable m found) {n : Machine}
    (onward : m.Onward n) : L.Reachable n found :=
  ⟨h.reaches.onward onward, h.fair⟩

theorem Reachable.exposed {found : Module} (h : L.Reachable m found) {name : Text} {arity : Nat}
    {f : ScriptFn} (script : found.scriptFn? name arity true = some f) : L.Callable m ⟨f, found⟩ :=
  ⟨(L.course.custody.lending f).mp (h.fair.scriptFn? script), h.reaches⟩

theorem At.reachable {f : α → Module} (hm : L.Ready m) {r : ι → EStateM.Result Halt Machine α}
    (h : L.At aside m (fun n a => n.Reaches (f a)) r) :
    L.At aside m (Onwards fun n a => L.Reachable n (f a)) r := by
  obtain ⟨acts, out, leads, ends, agree⟩ := h
  cases out with
  | error e n => exact ⟨acts, .error e n, leads, ends, agree⟩
  | ok a n =>
    have reachable : L.Reachable n (f a) := ⟨ends.2, ends.2.fair (hm.leads leads).tidy⟩
    exact ⟨acts, .ok a n, leads, ⟨ends.1, fun o later => reachable.onward later⟩, agree⟩

theorem scriptFn?_does (name : Text) (arity : Nat) (exposedOnly : Bool) :
    L.Does x base (fun n found => ∀ t, found = some t → L.Callable n t)
      fun _ => scriptFn? name arity exposedOnly := by
  intro m hm _
  refine (scriptFn?_at name arity exposedOnly hm).mono (fun found n hn => ?_) fun _ _ hn => hn
  exact ⟨hn.1, fun o later t eq => (hn.2 t eq).onward later⟩

theorem resolve_does (hev : L.Evaluates ev) (path : Text) (pos : Position) {looping : Bool} :
    L.Does (.expr looping) base (fun n s => L.Reachable n s.supplied)
      fun i => Eval.resolve engine (ev i) path pos := by
  intro m hm _
  refine At.reachable hm ((hev.resolve path pos m hm).mono ?_ ?_)
  · exact fun _ _ hn => ⟨False.elim, hn.2⟩
  · exact fun _ _ hn => ⟨False.elim, hn.2⟩

end Does

structure Aspect (L : Survey engine ι) where
  ready : Machine → Prop
  kept : ∀ {m n : Machine}, m.Since n → ready m → ready n

def Aspect.survey (A : L.Aspect) : Survey engine ι := { L with ready := A.ready, kept := A.kept }

end Scripting.Survey
