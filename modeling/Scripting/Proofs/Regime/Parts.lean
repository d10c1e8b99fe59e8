import Scripting.Proofs.Charter.Statement
import Scripting.Proofs.Regime.Call

/-
The parts of evaluation under a regime: variables, `this`, aliases and pointers. Whatever is worked on
is plain, and what is put back is plain again.
-/
namespace Scripting.Regime

variable {engine : Engine} {R : Regime engine} {way : Way} {ev : Evaluator}

open Eval

theorem readVariable_does (pos : Position) (name : Text) (path : List Text) :
    R.Does way R.plain (readVariable ev pos name path) := by
  cases path with
  | nil =>
    refine Does.get_bind fun m hm => ?_
    cases found : m.scope.find? name with
    | none => exact Does.fail _ pos m hm
    | some e =>
      have value : R.passes e.value := hm.scope e (Scope.mem_of_find? found)
      dsimp only
      generalize e.value = v at value ⊢
      cases v with
      | shared c =>
        refine Does.get_bind (fun n hn => ?_) m hm
        refine Does.bind (Does.look (n.store.read_faults c name pos) ?_)
          (fun w hw => flatten_does (passes_of_plain hw)) n hn
        intro w read
        unfold Store.read at read
        split at read
        · cases read
        · cases read
          exact hn.world.cells c
      | _ => exact Does.give (plain_of_passes value rfl) m hm
  | cons first rest =>
    refine Does.bind (findModule_does (first :: rest) pos) fun found sound => ?_
    cases value : found.value? name with
    | some v => exact Does.give (sound.values _ (Dict.mem_of_find? value))
    | none => exact Does.fail _ pos

theorem readThis_does (pos : Position) : R.Does way R.plain (readThis ev pos) := by
  refine Does.get_bind fun m hm => ?_
  cases found : m.this with
  | none => exact Does.fail _ pos m hm
  | some v => exact flatten_does (passes_of_plain (hm.this v found)) m hm

section

variable {α : Type} {Q : α → Prop} {k : Held Value α} (hk : R.Holds way R.plain Q k)
include hk

theorem atVariable_does (name : Text) (forWrite : Bool) (pos : Position) :
    R.Does way Q (atVariable ev name forWrite pos k) := by
  refine Does.get_bind fun m hm => ?_
  cases found : m.scope.find? name with
  | none => exact Does.fail _ pos m hm
  | some e =>
    have value : R.passes e.value := hm.scope e (Scope.mem_of_find? found)
    dsimp only
    split
    · split
      · exact Does.fail _ pos m hm
      · exact Does.bind (flatten_does value) (fun v hv => hk.drop hv) m hm
    · exact hk.onVariable hm found pos

theorem onThis_does (pos : Position) : R.Does way Q (Eval.onThis pos k) := by
  refine Does.get_bind fun m hm => ?_
  cases found : m.this with
  | none => exact Does.fail _ pos m hm
  | some v => exact hk.onThis hm found pos

end

theorem tryOnVariable_does (hev : R.Evaluates ev) (name : Text) (varPos : Position)
    (variableName : Text) {values : List Value} (hvalues : R.Plain values) (pos : Position) :
    R.Does way R.Object (tryOnVariable engine ev name varPos variableName values pos) := by
  refine Does.get_bind fun m hm => ?_
  cases found : m.scope.find? variableName with
  | none => exact Does.fail _ varPos m hm
  | some e =>
    dsimp only
    split
    · exact Does.give object_none m hm
    · exact (tryMethod_holds hev name hvalues.passing pos).onVariable hm found varPos

theorem capture_does (pos : Position) (name : Text) :
    R.Does way (fun v => v.isShared = true) (capture pos name) := by
  refine Does.get_bind fun m hm => ?_
  cases found : m.scope.find? name with
  | none => exact Does.fail _ pos m hm
  | some e => exact ⟨hm.share found, Store.isShared_share m.store e.value⟩

theorem isSharedVariable_does (name : Text) (pos : Position) :
    R.Does way R.plain (isSharedVariable name pos) := by
  refine Does.get_bind fun m hm => ?_
  cases m.scope.find? name with
  | none => exact Does.fail _ pos m hm
  | some e => exact Does.give (R.plain_bool _) m hm

theorem make_does (name : Text) (pos : Position) :
    R.Does way R.plain (liftM (FnPointer.make name pos)) := by
  unfold FnPointer.make
  split
  · exact Does.give ((R.fn name []).mpr (by simp))
  · exact Does.fail _ pos

theorem plain_curry {name : Text} {curry values : List Value} (h : R.plain (.fn name curry))
    (hvalues : R.Plain values) : R.plain (.fn name (curry ++ values)) :=
  (R.fn name _).mpr (carries_curry h hvalues)

theorem closure_does (pos : Position) {name : Text} {captured : List Text}
    (lent : captured = [] ∨ R.lends name ∨ ∀ v, R.plain v) :
    R.Does way R.plain (do return .fn name (← captured.mapM (capture pos))) := by
  rcases lent with rfl | lends | all
  · exact Does.give ((R.fn name []).mpr (by simp))
  · refine Does.bind (Does.mapM fun x _ => capture_does pos x) fun curry shared => Does.give ?_
    exact (R.fn name curry).mpr fun v hv => Or.inr ⟨shared v hv, lends⟩
  · exact Does.bind (Does.mapM fun x _ => capture_does pos x) fun curry _ => Does.give (all _)

theorem execExport_does (pos : Position) (names : List (Text × Option Text)) :
    R.Does way (fun _ => True) (execExport pos names) := by
  induction names with
  | nil => exact Does.give trivial
  | cons entry rest ih =>
    obtain ⟨name, asName⟩ := entry
    refine Does.get_bind fun m hm => ?_
    cases m.scope.find? name with
    | none => exact Does.fail _ pos m hm
    | some e => exact Does.bind (Does.change fun n hn => hn.mark name _) (fun _ _ => ih) m hm

theorem bindImport_does (asName : Option Text) {found : Module} (sound : found.Sound R) :
    R.Does way (fun _ => True) (bindImport asName found) := by
  cases asName with
  | some name => exact Does.change fun m hm => hm.bind name sound
  | none => exact Does.give trivial

end Scripting.Regime
