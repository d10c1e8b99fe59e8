import Scripting.Proofs.Access.Changing
import Scripting.Proofs.Access.Working
import Scripting.Proofs.Scripted.Evaluation

/-
Writing to a place, among values as scripts make them. Work that puts another value where it is at hand
puts the changed containers in the place of the old ones, all the way up to the variable; if this is an
alias, its cell takes the new value.
-/
namespace Scripting

namespace Held

variable {φ ψ α : Type} {m n : Machine} {a : α}

theorem lift_cases {k : Run α} {x : φ} {s : φ × Machine} (ran : lift k (x, m) = .ok a s) :
    ∃ n, k m = .ok a n ∧ s = (x, n) := by
  rw [lift_eq] at ran
  exact inState_cases ran

theorem drop_cases {k : Held φ α} {x : φ} (ran : drop x k m = .ok a n) :
    ∃ y, k (x, m) = .ok a (y, n) := by
  rw [drop_eq] at ran
  obtain ⟨s, out, rfl⟩ := inState_cases ran
  exact ⟨s.1, out⟩

theorem zoom_cases {k : Held ψ α} {part : ψ} {restore : ψ → φ → φ} {x : φ} {s : φ × Machine}
    (ran : zoom part restore k (x, m) = .ok a s) :
    ∃ part' n, k (part, m) = .ok a (part', n) ∧ s = (restore part' x, n) := by
  rw [zoom_eq] at ran
  obtain ⟨t, out, rfl⟩ := inState_cases ran
  exact ⟨t.1, t.2, out, rfl⟩

theorem ofMachine_cases {k : Held φ α} {part : φ} {restore : φ → Machine → Machine}
    (ran : ofMachine part restore k m = .ok a n) :
    ∃ part' o, k (part, m) = .ok a (part', o) ∧ n = restore part' o := by
  rw [ofMachine_eq] at ran
  obtain ⟨t, out, rfl⟩ := inState_cases ran
  exact ⟨t.1, t.2, out, rfl⟩

end Held

/-! ### Work in a container -/

/-- Where work succeeds on a value of a script, it puts there what the change makes of it, and does nothing
else. -/
def Makes (size : Nat) (change : Value → Option Value) (k : Held Value Unit) : Prop :=
  ∀ v n s, v.Scripted size → k (v, n) = .ok () s → ∃ v', change v = some v' ∧ s = (v', n)

theorem makes_setHeld (size : Nat) (x : Value) : Makes size (fun _ => some x) (Held.setHeld x) := by
  intro v n s _ ran
  cases ran
  exact ⟨x, rfl, rfl⟩

namespace Makes

variable {size : Nat} {change : Value → Option Value} {k : Held Value Unit} {n : Machine} {s : Holding}
  {engine : Engine} {ev : Evaluator}

theorem behind (h : Makes size change k) (name : Text) (pos : Position) :
    Makes size change (Held.behind name pos k) := by
  intro v n s hv ran
  cases v with
  | shared c => cases hv.unshared
  | _ => exact h _ n s hv ran

theorem zoom (h : Makes size change k) {v part : Value} (hpart : part.Scripted size)
    {restore : Value → Value → Value} {name : Text} {pos : Position}
    (ran : Held.zoom part restore (Held.behind name pos k) (v, n) = .ok () s) :
    ∃ part', change part = some part' ∧ s = (restore part' v, n) := by
  obtain ⟨w, o, inner, rfl⟩ := Held.zoom_cases ran
  obtain ⟨x, changed, same⟩ := h.behind name pos part n _ hpart inner
  cases same
  exact ⟨w, changed, rfl⟩

theorem atChar (h : Makes size change k) {t : Text} {i : Integer} {pos : Position}
    (ran : Eval.atChar engine ev t (.i64 i) true pos k (.string t, n) = .ok () s) :
    ∃ v', Value.through (.item i) change (.string t) = some v' ∧ s = (v', n) := by
  unfold Eval.atChar at ran
  obtain ⟨found, _, lifted, ran⟩ := bind_cases ran
  obtain ⟨o, located, rfl⟩ := Held.lift_cases lifted
  obtain ⟨there, rfl⟩ : Key.character? i t = some found ∧ n = o := by
    simp only [Eval.locateChar] at located
    cases there : (if i.val < 0 then none else Utf8.locate i.val.toNat t) with
    | none =>
      rw [there] at located
      cases located
    | some out =>
      rw [there] at located
      cases located
      exact ⟨there, rfl⟩
  obtain ⟨front, c, tail⟩ := found
  have small : (Value.char c).Scripted size :=
    Key.sees_scripted (k := .item i) (v := .string t) (Value.scripted_string t) (by simp [Key.sees, there])
  obtain ⟨⟨⟨⟩, x⟩, _, lifted, ran⟩ := bind_cases ran
  obtain ⟨_, dropped, rfl⟩ := Held.lift_cases lifted
  obtain ⟨_, both⟩ := Held.drop_cases dropped
  obtain ⟨_, _, worked, given⟩ := bind_cases both
  obtain ⟨x', changed, rfl⟩ := h _ _ _ small worked
  cases given
  cases x with
  | char d =>
    cases ran
    exact ⟨_, by simp [Value.through, Key.sees, there, changed, Key.put], rfl⟩
  | _ =>
    have refused (w : Value) :
        Fails (Held.lift (Eval.mismatch engine ev "char" w pos : Run Unit) (Value.string t, n)) :=
      ((Eval.mismatch_still engine ev "char" w pos).fails n).lift _
    exact absurd ran ((refused _).first _ _ _)

theorem atKey (h : Makes size change k) {entries : List (Text × Value)} {name : Text}
    (hentries : (Value.map entries).Scripted size) {pos : Position}
    (ran : Eval.atKey entries name true pos k (.map entries, n) = .ok () s) :
    ∃ v', Value.through (.entry name) change (.map entries) = some v' ∧ s = (v', n) := by
  have part : ((Dict.find? name entries).getD .unit).Scripted size :=
    Key.sees_scripted (k := .entry name) hentries rfl
  have entered : Eval.atKey entries name true pos k = Held.zoom ((Dict.find? name entries).getD .unit)
      (fun v _ => .map (Dict.insert name v entries)) (Held.behind name pos k) := by
    unfold Eval.atKey
    cases Dict.find? name entries <;> rfl
  rw [entered] at ran
  obtain ⟨part', changed, rfl⟩ := h.zoom part ran
  exact ⟨_, by simp [Value.through, Key.sees, changed, Key.put], rfl⟩

variable (core : engine.OnCore)
include core

theorem atIndex (h : Makes size change k) {index : Value} {key : Key} (known : index.key? = some key)
    (pos : Position) :
    Makes size (Value.through key change) (Eval.atIndex engine ev index true pos k) := by
  intro v n s hv ran
  have noAccessors : ∀ missing t, Eval.atAccessors engine ev Package.indexGetter Package.indexSetter [index]
      missing true pos k (v, n) ≠ .ok () t := fun missing t =>
    Eval.atAccessors_fails (fun name mem types => core.unserved (Package.overloads_of_dollar (by
      rcases List.mem_pair.mp mem with rfl | rfl
      · exact Package.dollar_mem_index.1
      · exact Package.dollar_mem_index.2)) types true) [index] missing k pos _ () t
  cases v with
  | array items =>
    obtain ⟨_, _, looked, ran⟩ := bind_cases ran
    cases looked
    obtain ⟨i, _, lifted, ran⟩ := bind_cases ran
    obtain ⟨_, inside, rfl⟩ := Held.lift_cases lifted
    cases key with
    | entry name =>
      cases Value.eq_of_key?_entry known
      exact absurd inside ((Eval.plainMismatch_still ev "i64" _ pos).fails n _ _)
    | item c =>
      cases Value.eq_of_key?_item known
      simp only [Eval.arrayIndex] at inside
      split at inside
      · cases inside
      · next fits =>
        cases inside
        have start : ¬ c.val < 0 := by omega
        have there : c.val.toNat < items.length := by omega
        have own : (items[c.val.toNat]?.getD .unit).Scripted size := by
          rw [List.getElem?_eq_getElem there]
          exact (Value.scripted_array _).mp hv _ (List.getElem_mem there)
        obtain ⟨part', changed, rfl⟩ := h.zoom own ran
        rw [List.getElem?_eq_getElem there, Option.getD_some] at changed
        exact ⟨_, by simp [Value.through, Key.sees, start, there, changed, Key.put], rfl⟩
  | map entries =>
    obtain ⟨_, _, looked, ran⟩ := bind_cases ran
    cases looked
    obtain ⟨name, _, lifted, ran⟩ := bind_cases ran
    obtain ⟨_, named, rfl⟩ := Held.lift_cases lifted
    cases key with
    | item c =>
      cases Value.eq_of_key?_item known
      exact absurd named ((Eval.plainMismatch_still ev "string" _ pos).fails n _ _)
    | entry name =>
      cases Value.eq_of_key?_entry known
      cases named
      exact h.atKey hv ran
  | string t =>
    cases key with
    | entry name =>
      cases Value.eq_of_key?_entry known
      have refused : Fails (Held.lift (Eval.locateChar ev t (.string name) pos) (Value.string t, n)) :=
        ((Eval.plainMismatch_still ev "i64" _ pos).fails n).lift _
      exact absurd ran (refused.first _ _ _)
    | item c =>
      cases Value.eq_of_key?_item known
      exact h.atChar ran
  | _ => exact absurd ran (noAccessors _ s)

theorem atProperty (h : Makes size change k) (name : Text) (pos : Position) :
    Makes size (Value.through (.entry name) change) (Eval.atProperty engine ev name true pos k) := by
  intro v n s hv ran
  have noAccessors : ∀ missing t, Eval.atAccessors engine ev (Package.getter name) (Package.setter name) []
      missing true pos k (v, n) ≠ .ok () t := fun missing t =>
    Eval.atAccessors_fails (fun own mem types => core.unserved (Package.overloads_of_dollar (by
      rcases List.mem_pair.mp mem with rfl | rfl
      · exact Package.dollar_mem_getter name
      · exact Package.dollar_mem_setter name)) types true) [] missing k pos _ () t
  cases v with
  | map entries => exact h.atKey hv ran
  | _ => exact absurd ran (noAccessors _ s)

end Makes

/-! ### Work at the start of a place -/

/-- Work behind an alias puts the value into its cell. -/
theorem Makes.behindStart {change : Value → Option Value} {k : Held Value Unit} {n n' : Machine}
    (h : Makes n.store.size change k) (hn : n.Scripted) {v w : Value} (hv : v.Passing n.store.size)
    {name : Text} {pos : Position} (ran : Held.behind name pos k (v, n) = .ok () (w, n')) :
    ∃ x x', v.behind? n.store = some x ∧ change x = some x' ∧
      ((v.isShared = false ∧ w = x' ∧ n' = n) ∨ ∃ c, v = .shared c ∧ w = v ∧ n.putCell c x' = some n') := by
  by_cases own : v.isShared = false
  · obtain ⟨x', changed, same⟩ := h.behind name pos v n _ (hv.own own) ran
    cases same
    exact ⟨v, w, Value.behind?_of_own own _, changed, Or.inl ⟨own, rfl, rfl⟩⟩
  · cases v with
    | shared c =>
      obtain ⟨_, entered, same⟩ := Held.lift_cases (k := Held.ofCell c name pos k) (x := Value.shared c) ran
      cases same
      cases taken : n.store.beginWrite c name pos with
      | error e =>
        rw [Held.ofCell_refused taken] at entered
        cases entered
      | ok s =>
        rw [Held.ofCell_eq taken] at entered
        obtain ⟨⟨x', _⟩, worked, rfl⟩ := inState_cases entered
        have content : (s.cell c).value = (n.store.cell c).value := Store.beginWrite_value taken c
        rw [content] at worked
        obtain ⟨y, changed, same⟩ := h _ _ _ (hn.cells c) worked
        cases same
        obtain ⟨free, -⟩ := Store.beginWrite_cases taken
        have unlocked : (n.store.cell c).writer = false := congrArg Prod.snd free
        refine ⟨_, x', if_neg (by simp [unlocked]), changed, Or.inr ⟨c, rfl, rfl, ?_⟩⟩
        rw [Machine.putCell, if_pos free, ← Store.endWrite_setValue taken]
        rfl
    | _ => exact absurd rfl own

namespace Eval

variable {engine : Engine} {change : Value → Option Value} {k : Held Value Unit} {n n' : Machine}

theorem atVariable_makes {ev : Evaluator} (h : Makes n.store.size change k) (hn : n.Scripted)
    {name : Text} {pos : Position} (ran : atVariable ev name true pos k n = .ok () n') :
    ∃ v v', n.start? (.variable name) = some v ∧ change v = some v' ∧
      n.putStart v' (.variable name) = some n' := by
  cases found : n.scope.find? name with
  | none => exact absurd ran ((atVariable_missing found true pos).fails _ _)
  | some e =>
    rw [atVariable_found found] at ran
    split at ran
    · cases ran
    · obtain ⟨w, o, worked, rfl⟩ := Held.ofMachine_cases ran
      obtain ⟨x, x', shown, changed, put⟩ := h.behindStart hn (hn.entry found) worked
      refine ⟨x, x', by rw [Machine.start?, found, Option.bind_some, shown], changed, ?_⟩
      rw [Machine.putStart, found, Option.bind_some]
      rcases put with ⟨own, rfl, rfl⟩ | ⟨c, shared, rfl, put⟩
      · split
        · next c shared => simp [shared, Value.isShared] at own
        · rfl
      · have kept : o.scope = n.scope := by
          unfold Machine.putCell at put
          split at put
          · cases put
            rfl
          · cases put
        simp only [shared, put, Option.some.injEq]
        rw [kept, ← shared, Scope.setValue_self found, ← kept]

theorem onThis_makes (h : Makes n.store.size change k) (hn : n.Scripted) {v : Value}
    (found : n.this = some v) {pos : Position}
    (ran : Run.onThis v (Held.behind Reserved.this pos k) n = .ok () n') :
    ∃ v v', n.start? .this = some v ∧ change v = some v' ∧ n.putStart v' .this = some n' := by
  obtain ⟨w, o, worked, rfl⟩ := Held.ofMachine_cases ran
  have own := hn.this v found
  obtain ⟨x, x', shown, changed, put⟩ := h.behindStart hn own.passing worked
  refine ⟨x, x', by rw [Machine.start?, found, Option.bind_some, shown], changed, ?_⟩
  rw [Machine.putStart, found, Option.bind_some]
  rcases put with ⟨-, rfl, rfl⟩ | ⟨c, shared, -, -⟩
  · split
    · cases own.unshared
    · rfl
  · cases shared ▸ own.unshared

end Eval

end Scripting
