import Scripting.Package.Host
import Scripting.Proofs.Assignment.Looking

/-
Work on a place. Everything on the way to a place is worked on where it is and put back in any case, so
what was done before a failure stays. A missing entry of a map is made on the way, and where native
functions stand for the parts of a value the work is on a copy, which is put back only if it is done.
-/
namespace Scripting

/-- No native function was found, or it failed. -/
def Refused {σ : Type} (r : EStateM.Result Halt σ (Option Value)) : Prop := ∀ v s, r ≠ .ok (some v) s

namespace Part

def getter : Part → Text
  | index _ => Package.indexGetter
  | property name => Package.getter name

def setter : Part → Text
  | index _ => Package.indexSetter
  | property name => Package.setter name

def args : Part → List Value
  | index v => [v]
  | property _ => []

end Part

section
variable (engine : Engine) (ev : Evaluator) (operator : Text) (given : Value)

open Eval in
/-- What work leaves of a value and of the machine, if it is done on what a way leads to in the value,
part by part. If the work is done then what is there may be replaced. -/
inductive Worked : List Part → Bool → Holding → Holding → Prop
  | idle {way : List Part} {done : Bool} {s : Holding} : Worked way done s s
  /-- The value is replaced by the given one. -/
  | put {v : Value} {m : Machine} : operator = [] → Worked [] true (v, m) (given, m)
  /-- The function of the compound assignment works on the value itself. -/
  | inPlace {done : Bool} {s : Holding} {pos : Position} : operator ≠ [] →
    done = true ∨ Refused (tryMethod engine ev operator [given] pos s) →
    Worked [] done s (ending (tryMethod engine ev operator [given] pos s))
  /-- The plain operator works on copies. -/
  | failing {done : Bool} {v : Value} {m n : Machine} {pos : Position} {h : Halt} : operator ≠ [] →
    callByValue engine ev operator.dropLast [v, given] pos m = .error h n →
    Worked [] done (v, m) (v, n)
  | replacing {v w : Value} {m n : Machine} {pos : Position} : operator ≠ [] →
    callByValue engine ev operator.dropLast [v, given] pos m = .ok w n → Worked [] true (v, m) (w, n)
  | item {part : Part} {way : List Part} {done : Bool} {items : List Value} {i : Nat} {v w : Value}
    {m n : Machine} : part.item? items.length = some i → items[i]? = some v →
    Worked way done (v, m) (w, n) →
    Worked (part :: way) done (.array items, m) (.array (items.set i w), n)
  /-- An entry of a map; a missing one is made first, as unit. -/
  | entry {part : Part} {way : List Part} {done : Bool} {entries : List (Text × Value)} {key : Text}
    {w : Value} {m n : Machine} : part.key? = some key →
    Worked way done ((Dict.find? key entries).getD .unit, m) (w, n) →
    Worked (part :: way) done (.map entries, m) (.map (Dict.insert key w entries), n)
  /-- The content of a cell, behind an alias. -/
  | cell {way : List Part} {done : Bool} {c : Nat} {name : Text} {pos : Position} {s : Store}
    {w : Value} {m n : Machine} : m.store.beginWrite c name pos = .ok s →
    Worked way done ((s.cell c).value, m.withStore s) (w, n) →
    Worked way done (.shared c, m) (.shared c, n.withStore ((n.store.setValue c w).endWrite c))
  /-- A copy of a character of a string, which is put back only at the end. -/
  | char {part : Part} {way : List Part} {done : Bool} {t : Text} {found : Text × CodePoint × Text}
    {w : Value} {m n : Machine} : part.character? t = some found →
    Worked way true (.char found.2.1, m) (w, n) →
    Worked (part :: way) done (.string t, m) (.string t, n)
  | charPut {part : Part} {way : List Part} {t : Text} {found : Text × CodePoint × Text}
    {d : CodePoint} {m n : Machine} : part.character? t = some found →
    Worked way true (.char found.2.1, m) (.char d, n) →
    Worked (part :: way) true (.string t, m)
      (.string (found.1 ++ Utf8.encode d ++ found.2.2), n)
  /-- A native function that gives a part of the value fails. -/
  | getting {part : Part} {way : List Part} {done : Bool} {pos : Position} {s t : Holding} {h : Halt} :
    tryMethod engine ev part.getter part.args pos s = .error h t → Worked (part :: way) done s t
  /-- The part that it gives is a copy; the work on it is not done, and it is not put back. -/
  | got {part : Part} {way : List Part} {done : Bool} {pos : Position} {s : Holding}
    {found : Option Value} {v w : Value} {m n : Machine} :
    tryMethod engine ev part.getter part.args pos s = .ok found (v, m) →
    Worked way false (found.getD .unit, m) (w, n) → Worked (part :: way) done s (v, n)
  /-- The part is put back by another native function. -/
  | setting {part : Part} {way : List Part} {done : Bool} {pos : Position} {s : Holding}
    {found : Option Value} {v w : Value} {m n : Machine} :
    tryMethod engine ev part.getter part.args pos s = .ok found (v, m) →
    Worked way true (found.getD .unit, m) (w, n) →
    done = true ∨ Refused (tryMethod engine ev part.setter (part.args ++ [w]) pos (v, n)) →
    Worked (part :: way) done s
      (ending (tryMethod engine ev part.setter (part.args ++ [w]) pos (v, n)))

end

section
variable (engine : Engine) (ev : Evaluator) (operator : Text) (given : Value)

/-- Work that leaves what it may, at the end of a way. -/
def Works {α : Type} (way : List Part) (k : Held Value α) : Prop :=
  ∀ s, Ends (fun _ t => Worked engine ev operator given way true s t)
    (fun _ t => Worked engine ev operator given way false s t) (k s)

variable {engine ev operator given} {way : List Part}

theorem Worked.finish {done : Bool} {s t : Holding}
    (h : Worked engine ev operator given way done s t) :
    Worked engine ev operator given way true s t := by
  induction h with
  | idle => exact .idle
  | put plain => exact .put plain
  | inPlace compound _ => exact .inPlace compound (.inl rfl)
  | failing compound called => exact .failing compound called
  | replacing compound called => exact .replacing compound called
  | item meant there _ ih => exact .item meant there ih
  | entry meant _ ih => exact .entry meant ih
  | cell taken _ ih => exact .cell taken ih
  | char meant _ ih => exact .char meant ih
  | charPut meant _ ih => exact .charPut meant ih
  | getting called => exact .getting called
  | got called worked _ => exact .got called worked
  | setting called _ _ ih => exact .setting called ih (.inl rfl)

namespace Works

variable {α : Type} {k : Held Value α}

theorem setHeld (plain : operator = []) : Works engine ev operator given [] (Held.setHeld given) :=
  fun _ => .put plain

theorem compound (compound : operator ≠ []) (pos : Position) :
    Works engine ev operator given [] (Eval.compound engine ev operator given pos) := by
  rintro ⟨v, m⟩
  refine Ends.bind ?_
  have inPlace (done : Bool)
      (finished : done = true ∨ Refused (Eval.tryMethod engine ev operator [given] pos (v, m))) :
      Worked engine ev operator given [] done (v, m)
        (ending (Eval.tryMethod engine ev operator [given] pos (v, m))) := .inPlace compound finished
  cases called : Eval.tryMethod engine ev operator [given] pos (v, m) with
  | error h t =>
    rw [called] at inPlace
    exact inPlace false (.inr fun _ _ same => by cases same)
  | ok found t =>
    cases found with
    | some w =>
      rw [called] at inPlace
      exact inPlace true (.inl rfl)
    | none =>
      cases Eval.tryMethod_none called
      -- The value is stored before its size is checked, but that check was made by the call already.
      have fits := Eval.callByValue_fits engine ev operator.dropLast pos [v, given] m
      refine Ends.bind (Ends.bind ?_)
      unfold Held.lift
      dsimp only
      cases applied : Eval.callByValue engine ev operator.dropLast [v, given] pos m with
      | error h n => exact .failing compound applied
      | ok w n =>
        rw [applied] at fits
        refine Ends.bind ?_
        change Ends _ _ ((monadLift (Eval.checkSize engine w pos) : Held Value Unit) (w, n))
        rw [show Eval.checkSize engine w pos = .ok () from fits]
        exact .replacing compound applied

theorem behind (hk : Works engine ev operator given way k) (name : Text) (pos : Position) :
    Works engine ev operator given way (Held.behind name pos k) := by
  rintro ⟨v, m⟩
  cases v with
  | shared c =>
    change Ends _ _ (Held.lift (Held.ofCell c name pos k) (Value.shared c, m))
    rw [Held.lift_eq]
    cases taken : m.store.beginWrite c name pos with
    | error h =>
      rw [Held.ofCell_refused taken]
      exact .idle
    | ok s =>
      rw [Held.ofCell_eq taken, inState_inState]
      refine (hk ((s.cell c).value, m.withStore s)).map ?_ ?_
      · exact fun _ _ inside => .cell taken inside
      · exact fun _ _ inside => .cell taken inside
  | _ => exact hk _

theorem zoom (hk : Works engine ev operator given way k) {whole : List Part} (part : Value)
    (restore : Value → Value → Value) {v : Value} {m : Machine}
    (back : ∀ done w n, Worked engine ev operator given way done (part, m) (w, n) →
      Worked engine ev operator given whole done (v, m) (restore w v, n)) :
    Ends (fun _ t => Worked engine ev operator given whole true (v, m) t)
      (fun _ t => Worked engine ev operator given whole false (v, m) t)
      (Held.zoom part restore k (v, m)) := by
  rw [Held.zoom_eq]
  exact (hk (part, m)).map (fun _ t => back true t.1 t.2) fun _ t => back false t.1 t.2

theorem copy (hk : Works engine ev operator given way k) (v : Value) (m : Machine) :
    Ends (fun a n => Worked engine ev operator given way true (v, m) (a.2, n))
      (fun _ n => ∃ w, Worked engine ev operator given way false (v, m) (w, n))
      (Held.drop v (do return (← k, ← Held.held)) m) := by
  have inside := hk (v, m)
  cases ran : k (v, m) with
  | ok a t =>
    rw [ran] at inside
    have both : (do return (← k, ← Held.held) : Held Value (α × Value)) (v, m) = .ok (a, t.1) t :=
      bind_of_ok ran _
    rw [Held.drop_of_ok both]
    exact inside
  | error h t =>
    rw [ran] at inside
    have both : (do return (← k, ← Held.held) : Held Value (α × Value)) (v, m) = .error h t :=
      bind_of_error ran _
    rw [Held.drop_of_error both]
    exact ⟨t.1, inside⟩

theorem atChar (hk : Works engine ev operator given way k) (t : Text) (index : Value)
    (pos : Position) (m : Machine) :
    Ends (fun _ s => Worked engine ev operator given (.index index :: way) true (.string t, m) s)
      (fun _ s => Worked engine ev operator given (.index index :: way) false (.string t, m) s)
      (Eval.atChar engine ev t index true pos k (.string t, m)) := by
  refine (Eval.locateChar_still ev t index pos).lift_bind (fun found meant => ?_) fun _ => .idle
  obtain ⟨front, c, tail⟩ := found
  refine Ends.bind ?_
  rw [Held.lift_eq]
  refine (hk.copy (.char c) m).map ?_ ?_
  · rintro ⟨a, w⟩ n inside
    cases w with
    | char d => exact .charPut meant inside
    | _ =>
      exact (Eval.mismatch_still (P := fun _ : Unit => False) engine ev "char" _ pos).lift_bind
        (fun _ wrong => wrong.elim) fun _ => .char meant inside
  · rintro h n ⟨w, inside⟩
    exact .char meant inside.finish

theorem atKey (hk : Works engine ev operator given way k) {part : Part}
    (entries : List (Text × Value)) {key : Text} (meant : part.key? = some key) (pos : Position)
    (m : Machine) :
    Ends (fun _ s => Worked engine ev operator given (part :: way) true (.map entries, m) s)
      (fun _ s => Worked engine ev operator given (part :: way) false (.map entries, m) s)
      (Eval.atKey entries key true pos k (.map entries, m)) := by
  have onEntry : ∀ done w n, Worked engine ev operator given way done
      ((Dict.find? key entries).getD .unit, m) (w, n) →
      Worked engine ev operator given (part :: way) done (.map entries, m)
        (.map (Dict.insert key w entries), n) := fun _ _ _ h => .entry meant h
  unfold Eval.atKey
  cases found : Dict.find? key entries with
  | some v =>
    rw [found] at onEntry
    exact (hk.behind key pos).zoom v (fun w _ => .map (Dict.insert key w entries)) onEntry
  | none =>
    rw [found] at onEntry
    exact (hk.behind key pos).zoom .unit (fun w _ => .map (Dict.insert key w entries)) onEntry

theorem atAccessors (hk : Works engine ev operator given way k) (part : Part)
    (missing : Held Value α) (pos : Position) :
    Works engine ev operator given (part :: way)
      (Eval.atAccessors engine ev part.getter part.setter part.args missing true pos k) := by
  intro s
  refine Ends.bind ?_
  cases called : Eval.tryMethod engine ev part.getter part.args pos s with
  | error h t => exact .getting called
  | ok found t =>
    obtain ⟨v, m⟩ := t
    have present : ¬ (found.isNone && !true) = true := by simp
    change Ends _ _ ((if (found.isNone && !true) = true then missing else _ : Held Value α) (v, m))
    rw [if_neg present]
    refine Ends.bind ?_
    rw [Held.lift_eq]
    refine (hk.copy (found.getD .unit) m).map ?_ ?_
    · rintro ⟨a, w⟩ n inside
      -- The setter is called even if there was no getter.
      have back (done : Bool)
          (finished : done = true ∨
            Refused (Eval.tryMethod engine ev part.setter (part.args ++ [w]) pos (v, n))) :
          Worked engine ev operator given (part :: way) done s
            (ending (Eval.tryMethod engine ev part.setter (part.args ++ [w]) pos (v, n))) :=
        .setting called inside finished
      refine Ends.bind ?_
      cases put : Eval.tryMethod engine ev part.setter (part.args ++ [w]) pos (v, n) with
      | error h t =>
        rw [put] at back
        exact back false (.inr fun _ _ same => by cases same)
      | ok written t =>
        rw [put] at back
        cases written with
        | some r => exact back true (.inl rfl)
        | none =>
          have left := back false (.inr fun _ _ same => by cases same)
          obtain ⟨u, o⟩ := t
          have unknown := Eval.notFound_still (α := α) (P := fun _ => False) engine ev part.setter
            (u :: part.args ++ [w]) pos o
          change Ends _ _
            (Held.lift (Eval.notFound engine ev part.setter (u :: part.args ++ [w]) pos) (u, o))
          rw [Held.lift_eq]
          refine unknown.map (fun _ _ never => never.2.elim) ?_
          rintro h n rfl
          exact left
    · rintro h n ⟨w, inside⟩
      exact .got called inside

theorem atIndex (hk : Works engine ev operator given way k) (index : Value) (pos : Position) :
    Works engine ev operator given (.index index :: way) (Eval.atIndex engine ev index true pos k) := by
  rintro ⟨v, m⟩
  refine Ends.bind (k := Held.held) ?_
  cases v with
  | array items =>
    refine (Eval.arrayIndex_still ev items.length index pos).lift_bind (fun i meant => ?_)
      fun _ => .idle
    have there : items[i]? = some (items[i]?.getD .unit) := by simp [meant.1]
    exact (hk.behind [] pos).zoom _ _ fun _ _ _ h => .item meant.2 there h
  | map entries =>
    refine (Eval.mapKey_still ev index pos).lift_bind (fun key meant => ?_) fun _ => .idle
    exact hk.atKey entries meant pos m
  | string t => exact hk.atChar t index pos m
  | _ => exact hk.atAccessors (.index index) _ pos _

theorem atProperty (hk : Works engine ev operator given way k) (name : Text) (pos : Position) :
    Works engine ev operator given (.property name :: way)
      (Eval.atProperty engine ev name true pos k) := by
  rintro ⟨v, m⟩
  refine Ends.bind (k := Held.held) ?_
  cases v with
  | map entries => exact hk.atKey entries rfl pos m
  | _ => exact hk.atAccessors (.property name) _ pos _

end Works

end

end Scripting
