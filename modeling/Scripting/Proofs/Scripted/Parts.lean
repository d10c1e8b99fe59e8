import Scripting.Proofs.Charter.Statement
import Scripting.Proofs.Scripted.Call
import Scripting.Proofs.SharedVariables

/-
The parts of evaluation among the values of scripts: variables, `this`, aliases and pointers. A closure
captures variables of different names, and in one frame these are aliases of different cells.
-/
namespace Scripting

/-- In one frame, a cell belongs to one name. -/
theorem Scope.aliases_inj {s : Scope} (apart : (aliased s.values).Nodup) {x y : Text} {c : Nat}
    (hx : s.Aliases x c) (hy : s.Aliases y c) : x = y := by
  induction s with
  | nil =>
    obtain ⟨e, never, -⟩ := hx
    cases never
  | cons e rest ih =>
    obtain ⟨ex, foundX, valueX⟩ := hx
    obtain ⟨ey, foundY, valueY⟩ := hy
    -- The newest entry is the alias, and another one is below it.
    have twice : e.value = .shared c → ∀ {f : Entry}, f ∈ rest → f.value = .shared c → False := by
      intro first f mem value
      rw [values, List.map_cons, first] at apart
      exact (List.nodup_cons.mp apart).1 (mem_aliased.mpr (value ▸ mem_values mem))
    unfold find? at foundX foundY
    split at foundX
    · next here =>
      cases foundX
      split at foundY
      · next same => exact here.symm.trans same
      · exact (twice valueX (mem_of_find? foundY) valueY).elim
    · split at foundY
      · cases foundY
        exact (twice valueY (mem_of_find? foundX) valueX).elim
      · have others : (aliased (values rest)).Nodup :=
          apart.sublist ((List.sublist_cons_self _ _).filterMap _)
        exact ih others ⟨ex, foundX, valueX⟩ ⟨ey, foundY, valueY⟩

theorem Scope.Aliases.mem_values {s : Scope} {x : Text} {c : Nat} (h : s.Aliases x c) :
    .shared c ∈ s.values := by
  obtain ⟨e, found, value⟩ := h
  exact value ▸ Scope.mem_values (mem_of_find? found)

theorem named_of_mem {P : Text → Value → Prop} {xs : List Text} {vs : List Value}
    (h : List.Forall₂ P xs vs) {v : Value} (mem : v ∈ vs) : ∃ x ∈ xs, P x v := by
  induction h with
  | nil => cases mem
  | @cons x w xs ws here _ ih =>
    rcases List.mem_cons.mp mem with rfl | mem
    · exact ⟨x, List.mem_cons_self, here⟩
    · obtain ⟨y, hy, found⟩ := ih mem
      exact ⟨y, List.mem_cons_of_mem _ hy, found⟩

theorem Scope.bindable_aliases {s : Scope} {size : Nat} (h : Bindable size s.values) {xs : List Text}
    {vs : List Value} (distinct : xs.Nodup)
    (aliases : List.Forall₂ (fun x v => ∃ c, s.Aliases x c ∧ v = .shared c) xs vs) :
    Bindable size vs := by
  induction aliases with
  | nil => exact .own (by simp)
  | @cons x v xs vs first rest ih =>
    obtain ⟨c, own, rfl⟩ := first
    obtain ⟨new, distinct⟩ := List.nodup_cons.mp distinct
    refine .cons (h.passing _ own.mem_values) (ih distinct) fun d same mem => ?_
    cases same
    obtain ⟨y, hy, d, other, eq⟩ := named_of_mem rest mem
    cases eq
    exact new (aliases_inj h.apart own other ▸ hy)

namespace Scripted

variable {engine : Engine} {ev ev' : Evaluator} {kept : Bool} {base : Nat}

open Eval

section Reading

variable (hev : Evaluators engine ev ev')
include hev

theorem readVariable_does (pos : Position) (name : Text) (path : List Text) :
    Does kept base Value.Scripted (readVariable ev pos name path) (readVariable ev' pos name path) := by
  cases path with
  | nil =>
    refine Does.get_bind fun m hm le => ?_
    cases found : m.scope.find? name with
    | none => exact Does.fail _ pos m hm le
    | some e =>
      have value := hm.entry found
      dsimp only
      generalize e.value = v at value ⊢
      cases v with
      | shared c =>
        have content : Does kept base Value.Scripted
            (do flatten ev (← (← get).store.read c name pos))
            (do flatten ev' (← (← get).store.read c name pos)) := by
          refine Does.get_bind fun n hn le => ?_
          cases read : n.store.read c name pos with
          | error e =>
            exact .error ⟨.refl hn, Halt.scripted_of_fault (n.store.read_faults c name pos e read)⟩
          | ok w =>
            have stored : w.Scripted n.store.size := read_ok read ▸ hn.cells c
            exact flatten_does hev stored.passing n hn (Nat.le_refl _)
        exact content m hm le
      | _ => exact .ok ⟨.refl hm, value.own rfl⟩
  | cons first rest =>
    refine Does.bind (findModule_does (first :: rest) pos) fun size found _ scripted => ?_
    cases value : found.value? name with
    | some v => exact Does.give fun _ le => (scripted.values _ (Dict.mem_of_find? value)).grow le
    | none => exact Does.fail _ pos

theorem readThis_does (pos : Position) :
    Does kept base Value.Scripted (readThis ev pos) (readThis ev' pos) := by
  refine Does.get_bind fun m hm le => ?_
  cases found : m.this with
  | none => exact Does.fail _ pos m hm le
  | some v => exact flatten_does hev (hm.this v found).passing m hm (Nat.le_refl _)

section

variable {α : Type} {Q : Nat → α → Prop} {k k' : Held Value α} (hk : Holds base Value.Scripted Q k k')
include hk

theorem atVariable_does (name : Text) (forWrite : Bool) (pos : Position) :
    Does false base Q (atVariable ev name forWrite pos k) (atVariable ev' name forWrite pos k') := by
  refine Does.get_bind fun m hm le => ?_
  cases found : m.scope.find? name with
  | none => exact Does.fail _ pos m hm le
  | some e =>
    dsimp only
    split
    · split
      · exact Does.fail _ pos m hm le
      · refine Does.bind (flatten_does hev (hm.entry found)) (fun size v le' hv => ?_) m hm (Nat.le_refl _)
        exact ((hk.raise (Nat.le_trans le le')).drop fun _ le => hv.grow le).loose
    · exact hk.onVariable hm le found pos

omit hev in
theorem onThis_does (pos : Position) : Does false base Q (Eval.onThis pos k) (Eval.onThis pos k') := by
  refine Does.get_bind fun m hm le => ?_
  cases found : m.this with
  | none => exact Does.fail _ pos m hm le
  | some v => exact hk.onThis hm le found pos

end

theorem tryOnVariable_does (core : engine.OnCore) (name : Text) (varPos : Position)
    (variableName : Text) {values : List Value} (hvalues : Own base values) (pos : Position) :
    Does false base Object (tryOnVariable engine ev name varPos variableName values pos)
      (tryOnVariable engine ev' name varPos variableName values pos) := by
  refine Does.get_bind fun m hm le => ?_
  cases found : m.scope.find? variableName with
  | none => exact Does.fail _ varPos m hm le
  | some e =>
    dsimp only
    split
    · exact Does.give (fun _ _ => object_none) m hm le
    · exact (tryMethod_holds hev core name hvalues.given pos).onVariable hm le found varPos

end Reading

theorem capture_does (pos : Position) (name : Text) :
    Does false base anything (capture pos name) (capture pos name) := by
  refine Does.get_bind fun m hm le => ?_
  cases found : m.scope.find? name with
  | none => exact Does.fail _ pos m hm le
  | some e =>
    have le : m.store.size ≤ (m.store.share e.value).1.size := by
      unfold Store.share
      split
      · exact Nat.le_refl _
      · rw [Store.size_alloc]
        exact Nat.le_succ _
    exact .ok ⟨⟨hm.share found, le, fun never => (by cases never)⟩, trivial⟩

theorem captures_does (pos : Position) {captured : List Text} (distinct : captured.Nodup) :
    Does false base Bindable (captured.mapM (capture pos)) (captured.mapM (capture pos)) := by
  intro m hm le
  have each : ∀ x ∈ captured, Does false base anything (capture pos x) (capture pos x) :=
    fun x _ => capture_does pos x
  have ends := Does.mapM ⟨fun _ _ => trivial⟩ each m hm le
  cases ran : captured.mapM (capture pos) m with
  | error e n =>
    rw [ran] at ends
    cases ends with
    | error h => exact .error h
    | excused never => exact never.elim
  | ok vs n =>
    rw [ran] at ends
    cases ends with
    | ok h =>
      exact .ok ⟨h.1, Scope.bindable_aliases h.1.scripted.scope distinct (captures_ok ran).1⟩

theorem isSharedVariable_does (name : Text) (pos : Position) :
    Does kept base Value.Scripted (isSharedVariable name pos) (isSharedVariable name pos) := by
  refine Does.get_bind fun m hm le => ?_
  cases m.scope.find? name with
  | none => exact Does.fail _ pos m hm le
  | some e => exact .ok ⟨.refl hm, Value.scripted_bool _⟩

theorem make_does (name : Text) (pos : Position) :
    Does kept base Value.Scripted (liftM (FnPointer.make name pos)) (liftM (FnPointer.make name pos)) := by
  unfold FnPointer.make
  split
  · exact Does.give fun _ _ => (Value.scripted_fn name []).mpr (.own (by simp))
  · exact Does.fail _ pos

theorem closure_does (pos : Position) (name : Text) {captured : List Text} (distinct : captured.Nodup) :
    Does false base Value.Scripted (do return .fn name (← captured.mapM (capture pos)))
      (do return .fn name (← captured.mapM (capture pos))) :=
  Does.bind (captures_does pos distinct) fun _ curry _ bound =>
    Does.give fun _ le => (Value.scripted_fn name curry).mpr (bound.grow le)

theorem execExport_does (pos : Position) (names : List (Text × Option Text)) :
    Does false base anything (execExport pos names) (execExport pos names) := by
  induction names generalizing base with
  | nil => exact Does.done
  | cons entry rest ih =>
    obtain ⟨name, asName⟩ := entry
    refine Does.get_bind fun m hm le => ?_
    cases m.scope.find? name with
    | none => exact Does.fail _ pos m hm le
    | some e =>
      refine Does.bind (Does.change fun n hn _ => ?_) (fun _ _ _ _ => ih) m hm le
      exact ⟨hn.mark name _, Nat.le_refl _, fun never => by cases never⟩

theorem bindImport_does (asName : Option Text) {found : Module} (scripted : found.Scripted base) :
    Does false base anything (bindImport asName found) (bindImport asName found) := by
  cases asName with
  | some name =>
    refine Does.change fun m hm le => ?_
    exact ⟨hm.bind name (scripted.grow le), Nat.le_refl _, fun never => by cases never⟩
  | none => exact Does.done

theorem push_does (name : Text) {v : Value} (hv : v.Scripted base) (isConst : Bool) :
    Does false base anything
      (modify fun m => { m with scope := m.scope.push name v isConst } : Run PUnit)
      (modify fun m => { m with scope := m.scope.push name v isConst }) := by
  refine Does.change fun m hm le => ?_
  exact ⟨hm.push name (hv.grow le) isConst, Nat.le_refl _, fun never => by cases never⟩

end Scripted

end Scripting
