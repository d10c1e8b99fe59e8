import Scripting.Proofs.Charter.Statement
import Scripting.Proofs.Twin.Call

/-
The parts of evaluation, as twin runs. Working on a place changes values and nothing else about a
variable.
-/
namespace Scripting

/-- Twin runs, and what the first of them gives. -/
structure GoesTo (engine : Engine) {σ α : Type} [Twins σ] (quiet : Prop) (Q : α → Prop)
    (k k' : EStateM Halt σ α) : Prop where
  goes : Goes engine quiet k k'
  given : Gives Q k

namespace GoesTo

variable {engine : Engine} {quiet : Prop} {σ α β φ ψ : Type} [Twins σ] {Q : α → Prop}

theorem whatever {k k' : EStateM Halt σ α} (h : Goes engine quiet k k') (all : ∀ a, Q a) :
    GoesTo engine quiet Q k k' :=
  ⟨h, fun s => (Gives.whatever k s).mono (fun a _ _ => all a) fun _ _ _ => trivial⟩

theorem of_goes {k k' : EStateM Halt σ α} (h : Goes engine quiet k k') :
    GoesTo engine quiet (fun _ => True) k k' :=
  whatever h fun _ => trivial

theorem give {a : α} (h : Q a) : GoesTo engine (σ := σ) quiet Q (pure a) (pure a) :=
  ⟨Goes.give a, fun _ => h⟩

theorem stop (h : Halt) : GoesTo engine (σ := σ) quiet Q (throw h) (throw h) :=
  ⟨Goes.stop h, fun _ => trivial⟩

theorem mono {quiet' : Prop} {k k' : EStateM Halt σ α} (h : GoesTo engine quiet Q k k')
    (weaker : quiet' → quiet) : GoesTo engine quiet' Q k k' :=
  ⟨h.goes.mono weaker, h.given⟩

theorem bind {R : β → Prop} {k k' : EStateM Halt σ α} {f f' : α → EStateM Halt σ β}
    (hk : GoesTo engine quiet Q k k') (hf : ∀ a, Q a → GoesTo engine quiet R (f a) (f' a)) :
    GoesTo engine quiet R (k >>= f) (k' >>= f') :=
  ⟨hk.goes.bind_given hk.given fun a ha => (hf a ha).goes, hk.given.bind fun a ha => (hf a ha).given⟩

theorem lift {k k' : Run α} (h : GoesTo engine quiet Q k k') :
    GoesTo engine quiet Q (Held.lift k : Held φ α) (Held.lift k') :=
  ⟨h.goes.lift, h.given.lift⟩

section Held

variable {k k' : Held φ α} (h : GoesTo engine quiet Q k k')
include h

theorem drop (x : φ) : GoesTo engine quiet Q (Held.drop x k) (Held.drop x k') :=
  ⟨h.goes.drop x, h.given.drop⟩

theorem zoom (x : φ) (restore : φ → ψ → ψ) :
    GoesTo engine quiet Q (Held.zoom x restore k) (Held.zoom x restore k') :=
  ⟨h.goes.zoom x restore, h.given.zoom⟩

end Held

end GoesTo

namespace Eval

variable {engine : Engine} {quiet : Prop} {ev ev' : Evaluator}

theorem capture_goes (pos : Position) (name : Text) :
    Goes engine quiet (capture pos name) (capture pos name) := by
  refine Goes.get_bind_at fun m _ counted => ?_
  obtain ⟨operations, progress, rfl⟩ := counted
  cases found : m.scope.find? name with
  | none => exact fail_goes _ pos m _ ⟨operations, progress, rfl⟩
  | some e =>
    refine .ok ⟨⟨operations, progress, rfl⟩, fun _ => ?_⟩
    change m.scope.marks <:+ Scope.marks (m.scope.setValue name (m.store.share e.value).2)
    rw [Scope.marks_setValue]

theorem isSharedVariable_goes (name : Text) (pos : Position) :
    Goes engine quiet (isSharedVariable name pos) (isSharedVariable name pos) := by
  refine Goes.get_bind fun m _ counted => ?_
  obtain ⟨operations, progress, rfl⟩ := counted
  dsimp only
  cases m.scope.find? name with
  | none => exact fail_goes _ pos
  | some e => exact Goes.give _

theorem closure_goes (pos : Position) (function : Text) (captured : List Text) : Goes engine quiet
    (do return .fn function (← captured.mapM (capture pos)) : Run Value)
    (do return .fn function (← captured.mapM (capture pos))) :=
  Goes.bind (Goes.mapM fun name _ => capture_goes pos name) fun _ => Goes.give _

theorem declare_goes (name : Text) (v : Value) (isConst : Bool) : Goes engine quiet
    (modify fun m => { m with scope := m.scope.push name v isConst } : Run PUnit)
    (modify fun m => { m with scope := m.scope.push name v isConst }) := by
  refine Goes.change fun m _ counted => ?_
  obtain ⟨operations, progress, rfl⟩ := counted
  exact ⟨⟨operations, progress, rfl⟩, fun _ => List.suffix_cons _ _⟩

theorem execExport_goes (pos : Position) (names : List (Text × Option Text)) :
    Goes engine False (execExport pos names) (execExport pos names) := by
  induction names with
  | nil => exact Goes.give ()
  | cons entry rest ih =>
    obtain ⟨name, asName⟩ := entry
    refine Goes.get_bind fun m _ counted => ?_
    obtain ⟨operations, progress, rfl⟩ := counted
    dsimp only
    cases m.scope.find? name with
    | none => exact fail_goes _ pos
    | some e =>
      refine Goes.bind (Goes.change fun m _ counted => ?_) fun _ => ih
      obtain ⟨operations, progress, rfl⟩ := counted
      exact ⟨⟨operations, progress, rfl⟩, False.elim⟩

theorem bindImport_goes (asName : Option Text) (found : Module) :
    Goes engine quiet (bindImport asName found) (bindImport asName found) := by
  cases asName with
  | none => exact Goes.give ()
  | some name =>
    refine Goes.change fun m _ counted => ?_
    obtain ⟨operations, progress, rfl⟩ := counted
    exact ⟨⟨operations, progress, rfl⟩, fun _ => List.suffix_refl _⟩

theorem loopTurn_goes {k k' : Run Value} (h : Goes engine quiet k k') :
    Goes engine quiet (loopTurn k) (loopTurn k') := by
  have stays : ∀ (m : Machine) (e : Halt) (n : Machine), engine.Stops e →
      ∃ e' o, loopTurn (fun _ => .error e n) m = .error e' o ∧ engine.Stops e' := by
    intro m e n stops
    cases e with
    | error e => exact ⟨_, _, rfl, stops⟩
    | _ => exact stops.elim
  intro m m' counted
  refine (h m m' counted).handle (f := fun out => loopTurn (fun _ => out) m)
    (g := fun out => loopTurn (fun _ => out) m') (fun _ _ _ => .ok) ?_ (fun n => ⟨n, rfl⟩)
    (stays m) (stays m')
  intro e n n' later
  cases e with
  | breaking => exact .ok later
  | continuing => exact .ok later
  | _ => exact .error later

section

variable (hev : engine.Follows ev ev')
include hev

theorem evalArgs_goes {args : List Expr} (hargs : quiet → ∀ e ∈ args, (Code.expr e).Exportless) :
    Goes engine quiet (evalArgs ev args) (evalArgs ev' args) :=
  Goes.mapM fun e mem => (hev.eval e).mono fun yes => hargs yes e mem

theorem readVariable_goes (pos : Position) (name : Text) (path : List Text) :
    Goes engine quiet (readVariable ev pos name path) (readVariable ev' pos name path) := by
  cases path with
  | nil =>
    refine Goes.get_bind fun m _ counted => ?_
    obtain ⟨operations, progress, rfl⟩ := counted
    dsimp only
    cases m.scope.find? name with
    | none => exact fail_goes _ pos
    | some e =>
      dsimp only
      cases e.value with
      | shared c =>
        refine Goes.get_bind fun n _ counted => ?_
        obtain ⟨operations, progress, rfl⟩ := counted
        exact Goes.bind (Goes.look (Fuller.refl (n.store.read c name pos))) fun w => flatten_goes hev w
      | _ => exact Goes.give _
  | cons first rest =>
    refine Goes.bind (findModule_goes (first :: rest) pos) fun found => ?_
    cases found.value? name with
    | some v => exact Goes.give v
    | none => exact fail_goes _ pos

theorem readThis_goes (pos : Position) : Goes engine quiet (readThis ev pos) (readThis ev' pos) := by
  refine Goes.get_bind fun m _ counted => ?_
  obtain ⟨operations, progress, rfl⟩ := counted
  dsimp only
  cases m.this with
  | none => exact fail_goes _ pos
  | some v => exact flatten_goes hev v

theorem tryOnVariable_goes (name : Text) (varPos : Position) (variableName : Text) (values : List Value)
    (pos : Position) :
    Goes engine quiet (tryOnVariable engine ev name varPos variableName values pos)
      (tryOnVariable engine ev' name varPos variableName values pos) := by
  refine Goes.get_bind fun m _ counted => ?_
  obtain ⟨operations, progress, rfl⟩ := counted
  dsimp only
  cases m.scope.find? variableName with
  | none => exact fail_goes _ varPos
  | some e =>
    dsimp only
    cases e.isConst with
    | true => exact Goes.give none
    | false =>
      exact ((tryMethod_goes hev name values pos).behind variableName varPos).onVariable variableName e.value

variable {α : Type} {Q : α → Prop} {k k' : Held Value α} (hk : GoesTo engine quiet Q k k')
include hk

theorem atVariable_goesTo (name : Text) (forWrite : Bool) (pos : Position) :
    GoesTo engine quiet Q (atVariable ev name forWrite pos k) (atVariable ev' name forWrite pos k') := by
  refine ⟨Goes.get_bind fun m _ counted => ?_, Gives.bind (Gives.whatever _) fun m _ => ?_⟩
  · obtain ⟨operations, progress, rfl⟩ := counted
    dsimp only
    cases m.scope.find? name with
    | none => exact fail_goes _ pos
    | some e =>
      dsimp only
      cases e.isConst with
      | false => exact (hk.goes.behind name pos).onVariable name e.value
      | true =>
        cases forWrite with
        | true => exact fail_goes _ pos
        | false => exact Goes.bind (flatten_goes hev e.value) fun v => hk.goes.drop v
  · split
    · exact fun _ => trivial
    · split
      · split
        · exact fun _ => trivial
        · exact Gives.bind (Gives.whatever _) fun v _ => hk.given.drop
      · exact (hk.given.behind name pos).ofMachine

omit hev in
theorem onThis_goesTo (pos : Position) : GoesTo engine quiet Q (onThis pos k) (onThis pos k') := by
  refine ⟨Goes.get_bind fun m _ counted => ?_, Gives.bind (Gives.whatever _) fun m _ => ?_⟩
  · obtain ⟨operations, progress, rfl⟩ := counted
    dsimp only
    cases m.this with
    | none => exact fail_goes _ pos
    | some v => exact (hk.goes.behind Reserved.this pos).onThis v
  · split
    · exact fun _ => trivial
    · exact (hk.given.behind Reserved.this pos).ofMachine

end

end Eval

end Scripting
