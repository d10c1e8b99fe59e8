import Scripting.Proofs.Charter.Statement
import Scripting.Proofs.Contract.Dispatch

/-
The parts of evaluation side by side: variables, `this` and exports. Only a variable itself can be an
alias, and it stays one.
-/
namespace Scripting

namespace Contract

variable {engine : Engine} {C : Contract engine} {α β : Type} {Q : α → Prop} {R : β → Prop}
  {x : Extent Unit}

/-- A statement may leave variables and imports behind. -/
def Within (C : Contract engine) (x : Extent Unit) (Q : α → Prop) (k k' : Run α) : Prop :=
  match x with
  | .stmt _ => C.Grows Q k k'
  | _ => C.Keeps Q k k'

theorem Within.of_keeps {k k' : Run α} (h : C.Keeps Q k k') : C.Within x Q k k' := by
  cases x with
  | stmt _ => exact h.grows
  | _ => exact h

theorem Within.bind {k k' : Run α} {f f' : α → Run β} (hk : C.Within x Q k k')
    (hf : ∀ a, Q a → C.Within x R (f a) (f' a)) : C.Within x R (k >>= f) (k' >>= f') := by
  cases x with
  | stmt _ => exact Grows.bind hk hf
  | _ => exact Keeps.bind hk hf

theorem effect_quiet {stmt : Stmt} (quiet : stmt.isQuiet = true) (m : Machine) : C.Effect stmt m m := by
  cases stmt with
  | declare => cases quiet
  | importModule => cases quiet
  | _ => rfl

theorem object_none : C.Object none := fun _ never => by cases never

end Contract

namespace Eval

variable {engine : Engine} {C : Contract engine} {ev ev' : Evaluator}

open Contract

theorem onVariable_keeps {α : Type} {Q : α → Prop} {k k' : Held Value α}
    (hk : C.Holds C.kind.plain Q k k') {m : Machine} (hm : C.Inv m) {name : Text} {e : Entry}
    (found : m.scope.find? name = some e) (writable : e.isConst = false) (pos : Position) :
    C.KeepsAt m Q (Run.onVariable name e.value (Held.behind name pos k) m)
      (Run.onVariable name e.value (Held.behind name pos k') m) := by
  have value : C.kind.passes e.value := hm.1.scope e (Scope.mem_of_find? found)
  have inside : C.HoldsAt (fun v => v = e.value ∨ e.value.isShared = false ∧ C.kind.plain v) m Q
      (Held.behind name pos k (e.value, m)) (Held.behind name pos k' (e.value, m)) := by
    cases stored : e.value with
    | shared c =>
      refine (Holds.behind_alias hk name pos c _ m hm rfl).mono ?_ ?_
      · exact fun _ _ h => ⟨Or.inl h.1, h.2⟩
      · exact fun _ _ h => ⟨Or.inl h.1, h.2⟩
    | _ =>
      rw [stored] at value
      have plain := Stock.plain_of_passes value rfl
      refine (Holds.behind hk name pos _ m hm plain).mono ?_ ?_
      · exact fun _ _ h => ⟨Or.inr ⟨rfl, h.1⟩, h.2⟩
      · exact fun _ _ h => ⟨Or.inr ⟨rfl, h.1⟩, h.2⟩
  have back : ∀ v n, (v = e.value ∨ e.value.isShared = false ∧ C.kind.plain v) → C.Step m n →
      C.Step m { n with scope := n.scope.setValue name v } := by
    intro v n hv hn
    obtain ⟨keeps, holds⟩ := C.discipline.assign hm.2 found writable hn.1 hn.2.2 hv
    refine ⟨keeps, hn.2.1.setVariable name ?_, holds⟩
    rcases hv with same | ⟨-, plain⟩
    · rw [same]
      exact value
    · exact Or.inr plain
  rw [Run.onVariable_eq, Run.onVariable_eq]
  refine inside.map ?_ ?_
  · exact fun _ s hs => ⟨back s.1 s.2 hs.1 hs.2.1, hs.2.2⟩
  · exact fun _ s hs => ⟨back s.1 s.2 hs.1 hs.2.1, hs.2.2⟩

theorem onThis_keeps {α : Type} {Q : α → Prop} {k k' : Held Value α}
    (hk : C.Holds C.kind.plain Q k k') (pos : Position) :
    C.Keeps Q (onThis pos k) (onThis pos k') := by
  refine Keeps.get_bind fun m hm => ?_
  cases found : m.this with
  | none => exact Keeps.fail _ pos m hm
  | some v =>
    have inside := Holds.behind hk Reserved.this pos v m hm (hm.1.this v found)
    have back : ∀ w n, C.kind.plain w → C.Step m n → C.Step m { n with this := some w } := by
      intro w n hw hn
      obtain ⟨keeps, holds⟩ := C.discipline.setThis hm.2 (by rw [found]; rfl) hn.1 hn.2.2 hw
      exact ⟨keeps, hn.2.1.setThis hw, holds⟩
    dsimp only
    rw [Run.onThis_eq, Run.onThis_eq]
    refine inside.map ?_ ?_
    · exact fun _ s hs => ⟨back s.1 s.2 hs.1 hs.2.1, hs.2.2⟩
    · exact fun _ s hs => ⟨back s.1 s.2 hs.1 hs.2.1, hs.2.2⟩

section

variable (hev : C.Evaluators ev ev')
include hev

theorem readVariable_keeps (pos : Position) (name : Text) (path : List Text) :
    C.Keeps C.kind.plain (readVariable ev pos name path) (readVariable ev' pos name path) := by
  cases path with
  | nil =>
    refine Keeps.get_bind fun m hm => ?_
    cases found : m.scope.find? name with
    | none => exact Keeps.fail _ pos m hm
    | some e =>
      have value : C.kind.passes e.value := hm.1.scope e (Scope.mem_of_find? found)
      dsimp only
      generalize e.value = v at value ⊢
      cases v with
      | shared c =>
        refine Keeps.get_bind (fun n hn => ?_) m hm
        refine Keeps.bind (Keeps.look (n.store.read_faults c name pos) ?_)
          (fun w hw => flatten_keeps hev (Stock.passes_of_plain hw)) n hn
        intro w read
        unfold Store.read at read
        split at read
        · cases read
        · cases read
          exact hn.cells c
      | _ => exact Keeps.give (Stock.plain_of_passes value rfl) m hm
  | cons first rest =>
    refine Keeps.bind (findModule_keeps (first :: rest) pos) fun found fair => ?_
    cases value : found.value? name with
    | some v => exact Keeps.give (fair.value? value)
    | none => exact Keeps.fail _ pos

theorem readThis_keeps (pos : Position) : C.Keeps C.kind.plain (readThis ev pos) (readThis ev' pos) := by
  refine Keeps.get_bind fun m hm => ?_
  cases found : m.this with
  | none => exact Keeps.fail _ pos m hm
  | some v => exact flatten_keeps hev (Stock.passes_of_plain (hm.1.this v found)) m hm

theorem atVariable_keeps {α : Type} {Q : α → Prop} {k k' : Held Value α}
    (hk : C.Holds C.kind.plain Q k k') (name : Text) (forWrite : Bool) (pos : Position) :
    C.Keeps Q (atVariable ev name forWrite pos k) (atVariable ev' name forWrite pos k') := by
  refine Keeps.get_bind fun m hm => ?_
  cases found : m.scope.find? name with
  | none => exact Keeps.fail _ pos m hm
  | some e =>
    have value : C.kind.passes e.value := hm.1.scope e (Scope.mem_of_find? found)
    dsimp only
    cases isConst : e.isConst with
    | true =>
      cases forWrite with
      | true => exact Keeps.fail _ pos m hm
      | false => exact Keeps.bind (flatten_keeps hev value) (fun v hv => hk.drop hv) m hm
    | false => exact onVariable_keeps hk hm found isConst pos

theorem tryOnVariable_keeps (name : Text) (varPos : Position) (variableName : Text)
    {values : List Value} (hvalues : C.Passing values) (pos : Position) :
    C.Keeps C.Object (tryOnVariable engine ev name varPos variableName values pos)
      (tryOnVariable (engine.inMode C.mode) ev' name varPos variableName values pos) := by
  refine Keeps.get_bind fun m hm => ?_
  cases found : m.scope.find? variableName with
  | none => exact Keeps.fail _ varPos m hm
  | some e =>
    dsimp only
    cases isConst : e.isConst with
    | true => exact Keeps.give object_none m hm
    | false => exact onVariable_keeps (tryMethod_holds hev name hvalues pos) hm found isConst varPos

end

theorem capture_keeps (pos : Position) (name : Text) :
    C.Keeps C.kind.passes (capture pos name) (capture pos name) := by
  refine Keeps.get_bind fun m hm => ?_
  cases found : m.scope.find? name with
  | none => exact Keeps.fail _ pos m hm
  | some e =>
    obtain ⟨keeps, holds⟩ := C.discipline.share hm.2 found
    exact .ok ⟨⟨keeps, hm.1.share found, holds⟩, Or.inl (Store.isShared_share m.store e.value)⟩

theorem closure_keeps (pos : Position) (function : Text) (captured : List Text) :
    C.Keeps C.kind.plain (do return .fn function (← captured.mapM (capture pos)))
      (do return .fn function (← captured.mapM (capture pos))) :=
  Keeps.bind (Keeps.mapM fun name _ => capture_keeps pos name) fun curry hcurry =>
    Keeps.give ((C.kind.fn function curry).mpr hcurry)

theorem isSharedVariable_keeps (name : Text) (pos : Position) :
    C.Keeps C.kind.plain (isSharedVariable name pos) (isSharedVariable name pos) := by
  refine Keeps.get_bind fun m hm => ?_
  cases m.scope.find? name with
  | none => exact Keeps.fail _ pos m hm
  | some e => exact Keeps.give (C.kind.plain_bool _) m hm

theorem make_keeps (name : Text) (pos : Position) :
    C.Keeps C.kind.plain (liftM (FnPointer.make name pos)) (liftM (FnPointer.make name pos)) := by
  unfold FnPointer.make
  split
  · exact Keeps.give ((C.kind.fn name []).mpr (by simp))
  · exact Keeps.fail _ pos

theorem loopTurn_keeps {k k' : Run Value} (h : C.Keeps C.kind.plain k k') :
    C.Keeps (fun _ => True) (loopTurn k) (loopTurn k') := by
  intro m hm
  exact (h m hm).loopTurn C.breaking C.continuing (fun _ _ _ hn => ⟨hn.1, trivial⟩)
    fun _ _ _ hn => ⟨hn.1, trivial⟩

theorem loopTurn_grows {k k' : Run Value} (h : C.Grows C.kind.plain k k') :
    C.Grows (fun _ => True) (loopTurn k) (loopTurn k') := by
  intro m hm
  exact (h m hm).loopTurn C.breaking C.continuing (fun _ _ _ hn => ⟨hn.1, trivial⟩)
    fun _ _ _ hn => ⟨hn.1, trivial⟩

theorem execExport_keeps (pos : Position) (names : List (Text × Option Text)) :
    C.Keeps (fun _ => True) (execExport pos names) (execExport pos names) := by
  induction names with
  | nil => exact Keeps.give trivial
  | cons entry rest ih =>
    obtain ⟨name, asName⟩ := entry
    refine Keeps.get_bind fun m hm => ?_
    cases m.scope.find? name with
    | none => exact Keeps.fail _ pos m hm
    | some e =>
      refine Keeps.bind (Keeps.change fun n hn => ?_) (fun _ _ => ih) m hm
      obtain ⟨keeps, holds⟩ := C.discipline.mark name (some (asName.getD name)) hn.2
      exact ⟨keeps, hn.1.mark name _, holds⟩

theorem bindImport_grows (asName : Option Text) {found : Module} (fair : found.Fair C.kind) :
    C.Grows (fun _ => True) (bindImport asName found) (bindImport asName found) := by
  cases asName with
  | some name => exact Grows.change fun _ hm => step_bind hm name fair
  | none => exact (Keeps.give trivial).grows

end Eval

end Scripting
