import Scripting.Eval.Place
import Scripting.Proofs.Contract.Agree
import Scripting.Proofs.Running

/-
Parts of evaluation that only look at the machine, and what limits native functions keep to.
-/
namespace Scripting

/-- A part of a value: what an index means in it, or a property. -/
inductive Part where
  | index (v : Value)
  | property (name : Text)

namespace Part

def item? (size : Nat) : Part → Option Nat
  | index (.int .i64 n) => if n.val < 0 ∨ (size : Int) ≤ n.val then none else some n.val.toNat
  | _ => none

def key? : Part → Option Text
  | index (.string t) => some t
  | index _ => none
  | property name => some name

def character? (t : Text) : Part → Option (Text × CodePoint × Text)
  | index (.int .i64 n) => if n.val < 0 then none else Utf8.locate n.val.toNat t
  | _ => none

end Part

abbrev Holding := Value × Machine

/-! ### Looking -/

def Still {α : Type} (P : α → Prop) (k : Run α) : Prop :=
  ∀ m, Ends (fun a n => n = m ∧ P a) (fun _ n => n = m) (k m)

namespace Still

variable {α β : Type} {P : α → Prop} {Q : β → Prop}

theorem give {a : α} (h : P a) : Still P (pure a) := fun _ => ⟨rfl, h⟩

theorem fail (cause : Cause) (pos : Position) : Still P (Run.fail cause pos) := fun _ => rfl

theorem look (x : Except Halt α) : Still (fun _ => True) (monadLift x : Run α) := by
  intro m
  cases x with
  | ok a => exact ⟨rfl, trivial⟩
  | error h => exact rfl

theorem bind {k : Run α} {f : α → Run β} (hk : Still P k) (hf : ∀ a, P a → Still Q (f a)) :
    Still Q (k >>= f) := by
  intro m
  refine Ends.bind ((hk m).mono ?_ fun _ _ h => h)
  rintro a n ⟨rfl, h⟩
  exact hf a h n

theorem bind_ends {k : Run α} {f : α → Run β} {good : β → Machine → Prop}
    {bad : Halt → Machine → Prop} {m : Machine} (hk : Still P k)
    (hf : ∀ a, P a → Ends good bad (f a m)) (hbad : ∀ h, bad h m) : Ends good bad ((k >>= f) m) := by
  refine Ends.bind ((hk m).mono ?_ ?_)
  · rintro a n ⟨rfl, h⟩
    exact hf a h
  · rintro h n rfl
    exact hbad h

theorem lift_bind {φ : Type} {k : Run α} {f : α → Held φ β} {good : β → φ × Machine → Prop}
    {bad : Halt → φ × Machine → Prop} {x : φ} {m : Machine} (hk : Still P k)
    (hf : ∀ a, P a → Ends good bad (f a (x, m))) (hbad : ∀ h, bad h (x, m)) :
    Ends good bad ((Held.lift k >>= f) (x, m)) := by
  refine Ends.bind ?_
  rw [Held.lift_eq]
  refine (hk m).map ?_ ?_
  · rintro a n ⟨rfl, h⟩
    exact hf a h
  · rintro h n rfl
    exact hbad h

end Still

namespace Eval

section
variable (engine : Engine) (ev : Evaluator)

theorem typeOf_still (v : Value) : Still (fun _ => True) (typeOf ev v) :=
  fun m => Still.look (m.store.typeOf ev.fuel v) m

theorem plain_still (v : Value) : Still (fun _ => True) (plain ev v) := by
  unfold plain
  split
  · exact fun m => Still.look (m.store.flatten ev.fuel v) m
  · exact .give trivial

theorem checkSize_still (v : Value) (pos : Position) :
    Still (fun _ => True) (monadLift (checkSize engine v pos) : Run Unit) := .look _

theorem plainMismatch_still {α : Type} {P : α → Prop} (expected : String) (v : Value)
    (pos : Position) : Still P (plainMismatch ev expected v pos) :=
  (typeOf_still ev v).bind fun _ _ => .fail _ pos

theorem mismatch_still {α : Type} {P : α → Prop} (expected : String) (v : Value) (pos : Position) :
    Still P (mismatch engine ev expected v pos) :=
  (typeOf_still ev v).bind fun _ _ => .fail _ pos

theorem typesOf_still (args : List Value) : Still (fun _ => True) (typesOf ev args) := by
  unfold typesOf
  induction args with
  | nil => exact .give trivial
  | cons v rest ih =>
    rw [List.mapM_cons]
    exact (typeOf_still ev v).bind fun _ _ => ih.bind fun _ _ => .give trivial

theorem notFound_still {α : Type} {P : α → Prop} (name : Text) (args : List Value) (pos : Position) :
    Still P (notFound engine ev name args pos) :=
  (typesOf_still ev args).bind fun _ _ => .fail _ pos

theorem arrayIndex_still (size : Nat) (index : Value) (pos : Position) :
    Still (fun i => i < size ∧ (Part.index index).item? size = some i)
      (arrayIndex ev size index pos) := by
  unfold arrayIndex
  split
  · split
    · exact .fail _ pos
    · next inside => exact .give ⟨by omega, if_neg inside⟩
  · exact plainMismatch_still ev "i64" _ pos

theorem mapKey_still (index : Value) (pos : Position) :
    Still (fun key => (Part.index index).key? = some key) (mapKey ev index pos) := by
  unfold mapKey
  split
  · exact .give rfl
  · exact plainMismatch_still ev "string" _ pos

theorem locateChar_still (t : Text) (index : Value) (pos : Position) :
    Still (fun found => (Part.index index).character? t = some found)
      (locateChar ev t index pos) := by
  unfold locateChar
  split
  · split
    · next located => exact .give located
    · exact .fail _ pos
  · exact plainMismatch_still ev "i64" _ pos

end

section
variable {engine : Engine} {ev : Evaluator} {name : Text} {rest : List Value} {pos : Position}

theorem tryMethod_ends {good : Option Value → Holding → Prop} {bad : Halt → Holding → Prop}
    {v : Value} {m : Machine} (none : good none (v, m)) (halted : ∀ h, bad h (v, m))
    (called : ∀ types f, engine.native? name types true = some f →
      Ends (fun w t => good (some w) (t.1.headD v, t.2)) (fun h t => bad h (t.1.headD v, t.2))
        (callNative engine ev f name true pos (v :: rest, m))) :
    Ends good bad (tryMethod engine ev name rest pos (v, m)) := by
  have native : Ends (fun r t => good r (t.1.headD v, t.2)) (fun h t => bad h (t.1.headD v, t.2))
      (tryNative engine ev name true pos (v :: rest, m)) := by
    change Ends _ _ ((Held.lift (typesOf ev (v :: rest)) >>= fun types => _ :
      Held (List Value) (Option Value)) (v :: rest, m))
    refine (typesOf_still ev (v :: rest)).lift_bind (fun types _ => ?_) halted
    cases found : engine.native? name types true with
    | none => exact none
    | some f => exact Ends.bind ((called types f found).mono (fun _ _ h => h) fun _ _ h => h)
  change Ends good bad (Held.zoom (v :: rest) (fun args v => args.headD v)
    (tryNative engine ev name true pos) (v, m))
  rw [Held.zoom_eq]
  exact native.map (fun _ _ h => h) fun _ _ h => h

theorem tryMethod_none {s t : Holding} (h : tryMethod engine ev name rest pos s = .ok none t) :
    t = s := by
  have ends : Ends (fun r t => r = none → t = s) (fun _ _ => True)
      (tryMethod engine ev name rest pos s) := by
    refine tryMethod_ends (fun _ => rfl) (fun _ => trivial) fun types f _ => ?_
    cases callNative engine ev f name true pos (s.1 :: rest, s.2) with
    | ok w u => exact fun none => by cases none
    | error h u => trivial
  rw [h] at ends
  exact ends rfl

theorem tryMethod_unserved (unserved : ∀ types, engine.native? name types true = none) (s : Holding) :
    Ends (fun r t => r = none ∧ t = s) (fun _ t => t = s) (tryMethod engine ev name rest pos s) := by
  refine tryMethod_ends ⟨rfl, rfl⟩ (fun _ => rfl) fun types f found => ?_
  rw [unserved types] at found
  cases found

end

end Eval

/-! ### Results of native functions -/

namespace Eval

section
variable (engine : Engine) (ev : Evaluator) (name : Text) (pos : Position)

def Fits (v : Value) : Prop := checkSize engine v pos = .ok ()

theorem runChecked_fits (f : Function) (method : Bool) :
    Gives (Fits engine pos) (runChecked engine ev f name method pos) := by
  refine Gives.bind (Gives.whatever _) fun result _ => ?_
  have checked : Gives (fun _ => Fits engine pos result)
      (monadLift (checkSize engine result pos) : Held (List Value) Unit) := by
    intro s
    unfold Fits
    cases checkSize engine result pos with
    | ok _ => rfl
    | error h => trivial
  refine Gives.bind checked fun _ fits => ?_
  refine Gives.bind (Gives.whatever Held.held) fun args _ => ?_
  have last : Gives (Fits engine pos) (pure result : Held (List Value) Value) := fun _ => fits
  cases args with
  | nil => exact last
  | cons first rest =>
    dsimp only
    split
    · exact Gives.bind (Gives.whatever _) fun _ _ => last
    · exact last

theorem callNative_fits (f : Overload) (method : Bool) :
    Gives (Fits engine pos) (callNative engine ev f name method pos) := by
  refine Gives.bind (Gives.whatever Held.held) fun args _ => ?_
  have checked := runChecked_fits engine ev name pos f.2 method
  cases args with
  | nil => exact checked
  | cons first rest =>
    have call : Gives (Fits engine pos) (do
        let copies ← Held.lift (passCopies ev f.1.params.tail rest)
        let v ← Held.held
        Held.zoom (v :: copies) (fun args v => args.headD v)
          (runChecked engine ev f.2 name method pos) : Held Value Value) :=
      Gives.bind (Gives.whatever _) fun _ _ => Gives.bind (Gives.whatever _) fun _ _ => checked.zoom
    refine Gives.bind (Gives.whatever _) fun float _ => ?_
    split
    · exact Gives.bind (Gives.whatever _) fun v _ => call.drop.lift
    · exact (call.behind [] pos).zoom

/-- What the plain operator gives keeps to the limits. -/
theorem callByValue_fits (args : List Value) :
    Gives (Fits engine pos) (callByValue engine ev name args pos) := by
  have native : Gives (fun found => ∀ v, found = some v → Fits engine pos v)
      (tryNative engine ev name false pos) := by
    refine Gives.bind (Gives.whatever Held.held) fun args _ => ?_
    refine Gives.bind (Gives.whatever _) fun types _ => ?_
    cases engine.native? name types false with
    | none => exact fun _ v none => by cases none
    | some f =>
      refine Gives.bind (callNative_fits engine ev name pos f false) fun v fits => fun _ w same => ?_
      cases same
      exact fits
  refine Gives.bind native.drop fun found fits => ?_
  cases found with
  | some v => exact fun _ => fits v rfl
  | none =>
    dsimp only
    split
    · exact fun _ => rfl
    · split
      · exact fun _ => rfl
      · exact fun m => (notFound_still (P := fun _ => False) engine ev name args pos m).mono
          (fun _ _ h => h.2.elim) fun _ _ _ => trivial

end

end Eval

end Scripting
