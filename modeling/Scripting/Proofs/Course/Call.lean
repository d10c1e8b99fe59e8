import Scripting.Proofs.Contract.Dispatch
import Scripting.Proofs.Course.Basic

/-
Calls, surveyed. A function of a script runs in a frame of its own. A native may call back; what it
passes on is then part of its own arguments and weighs less than these, so a chain of natives that
call each other has an end.
-/
namespace Scripting.Survey

variable {engine : Engine} {ι : Type} {L : Survey engine ι} {aside : Prop} {ev : ι → Evaluator}

open Eval

def Light (L : Survey engine ι) (bound : Option Nat) (args : List Value) : Prop :=
  ∀ b, bound = some b → ¬ L.spent ∧ L.Plain args ∧ Value.weights args ≤ b

theorem light_none (args : List Value) : L.Light none args := by
  intro b never
  cases never

theorem Light.imp {bound : Option Nat} {args less : List Value} (h : L.Light bound args)
    (plain : L.Plain args → L.Plain less) (weights : Value.weights less ≤ Value.weights args) :
    L.Light bound less := by
  intro b eq
  obtain ⟨unspent, hargs, le⟩ := h b eq
  exact ⟨unspent, plain hargs, Nat.le_trans weights le⟩

structure Receiver (L : Survey engine ι) (S : Value → Prop) : Prop where
  plain : ∀ v, L.plain v → S v
  passes : ∀ v, S v → L.passes v
  behind : ∀ {α : Type} {Q : α → Prop} {k : ι → Held Value α} name pos, L.Holds L.plain Q k →
    L.Holds S Q fun i => Held.behind name pos (k i)

def Args (L : Survey engine ι) (S : Value → Prop) (args : List Value) : Prop :=
  (∀ v, args.head? = some v → S v) ∧ L.Passing args.tail

theorem receiver_plain : L.Receiver L.plain :=
  ⟨fun _ h => h, fun _ h => Stock.passes_of_plain h,
    fun name pos h _ m hm hv => (h.works.behind hm m.onward_refl name pos hv).now⟩

theorem receiver_passing : L.Receiver L.passes := by
  refine ⟨fun _ h => Stock.passes_of_plain h, fun _ h => h, ?_⟩
  intro α Q k name pos h v m hm hv
  have back : ∀ w, (w = v ∨ v.isShared = false ∧ L.plain w) → L.passes w := by
    rintro w (rfl | ⟨-, plain⟩)
    · exact hv
    · exact Stock.passes_of_plain plain
  refine (h.works.behind_passing hm m.onward_refl name pos hv).mono ?_ ?_
  · exact fun _ s hs => ⟨hs.1, back s.1 hs.2.1, hs.2.2 s.2 s.2.onward_refl⟩
  · exact fun _ s hs => ⟨hs.1, back s.1 hs.2.1, hs.2.2⟩

theorem Args.cons {S : Value → Prop} {v : Value} {rest : List Value} (hv : S v)
    (hrest : L.Passing rest) : L.Args S (v :: rest) := by
  refine ⟨?_, hrest⟩
  intro w eq
  cases eq
  exact hv

theorem Args.headD {S : Value → Prop} {args : List Value} (h : L.Args S args) {v : Value} (hv : S v) :
    S (args.headD v) := by
  cases args with
  | nil => exact hv
  | cons w rest => exact h.1 w rfl

theorem Plain.args {args : List Value} (h : L.Plain args) {S : Value → Prop} (hS : L.Receiver S) :
    L.Args S args :=
  ⟨fun v eq => hS.plain v (h v (List.mem_of_mem_head? eq)), h.tail.passing⟩

theorem Passing.args {args : List Value} (h : L.Passing args) : L.Args L.passes args :=
  ⟨fun v eq => h v (List.mem_of_mem_head? eq), fun v hv => h v (List.mem_of_mem_tail hv)⟩

theorem toFloat_plain {v : Value} (hv : L.plain v) : L.plain (toFloat v) := by
  unfold toFloat
  split
  · exact L.course.custody.plain_float _
  · exact hv

section Frames

theorem inFrame_held {α : Type} {Q : α → Prop} {k : ι → Run α} (hk : L.Goes False Q k)
    {scope : Scope} {library : Module} {this : Option Value} {m : Machine}
    (hscope : ∀ e ∈ scope, L.passes e.value) (hlibrary : m.Reaches library)
    (hthis : L.Object this) (hm : L.Ready m) :
    L.HeldAt L.Object m Q fun i => inFrame scope library (k i) (this, m) := by
  have fits : L.course.Fits (.call scope library this) m.alone := ⟨hlibrary, hscope, hthis⟩
  have inside : L.Ready (m.enter scope library this) :=
    ⟨hm.tidy.enter hscope (hlibrary.fair hm.tidy) hthis,
      L.kept (m.since_enter scope library this) hm.ready⟩
  refine (hk _ inside).transport (g := fun out => inFrame scope library (fun _ => out) (this, m)) ?_
  intro out acts leads ends
  have object : ∀ n, L.course.Leads (m.enter scope library this) acts n → L.Object n.this :=
    fun n leads => (inside.leads leads).tidy.this
  cases out with
  | ok a n => exact ⟨_, leads.call fits, leads.visits_call, rfl, object n leads, ends.2⟩
  | error e n => exact ⟨_, leads.call fits, leads.visits_call, rfl, object n leads, ends.2⟩

end Frames

section Readers

variable (hev : L.Reads ev)
include hev

theorem typesOf_goes {args : List Value} (hargs : L.Passing args) :
    L.Goes aside (fun _ => True) fun i => typesOf (ev i) args :=
  (Goes.mapM fun v hv => typeOf_goes hev (hargs v hv)).imp fun _ _ => trivial

theorem notFound_goes {α : Type} {Q : α → Prop} (name : Text) {args : List Value}
    (hargs : L.Passing args) (pos : Position) :
    L.Goes aside Q fun i => notFound engine (ev i) name args pos :=
  Goes.bind (typesOf_goes hev hargs) fun _ _ => Goes.fail _ pos

theorem needsFloat_goes (param : ValueType) {v : Value} (hv : L.passes v) :
    L.Goes aside (fun _ => True) fun i => needsFloat (ev i) param v := by
  unfold needsFloat
  split
  · exact Goes.bind (typeOf_goes hev hv) fun _ _ => Goes.give trivial
  · exact Goes.give trivial

theorem passCopy_goes (param : ValueType) {v : Value} (hv : L.passes v) :
    L.Goes aside (fun w => L.plain w ∧ (v.isShared = false → w.weight = v.weight))
      fun i => passCopy (ev i) param v := by
  apply Goes.bind (needsFloat_goes hev param hv)
  intro needs _
  split
  · apply Goes.bind (flatten_goes hev hv)
    rintro w ⟨plain, same⟩
    refine Goes.give ⟨toFloat_plain plain, fun unshared => ?_⟩
    rw [Value.weight_toFloat, same unshared]
  · cases shared : v.isShared with
    | true => exact (flatten_goes hev hv).imp fun w hw => ⟨hw.1, fun never => by cases never⟩
    | false => exact Goes.give ⟨Stock.plain_of_passes hv shared, fun _ => rfl⟩

theorem passCopies_goes (params : List ValueType) {args : List Value} (hargs : L.Passing args) :
    L.Goes aside (fun copies => L.Plain copies ∧
        ((∀ v ∈ args, v.isShared = false) → Value.weights copies ≤ Value.weights args))
      fun i => passCopies (ev i) params args := by
  induction params generalizing args with
  | nil => exact Goes.give ⟨plain_nil, fun _ => Nat.zero_le _⟩
  | cons p ps ih =>
    cases args with
    | nil => exact Goes.give ⟨plain_nil, fun _ => Nat.zero_le _⟩
    | cons v vs =>
      apply Goes.bind (passCopy_goes hev p (hargs v List.mem_cons_self))
      rintro w ⟨hw, weight⟩
      apply Goes.bind (ih fun u hu => hargs u (List.mem_cons_of_mem _ hu))
      rintro ws ⟨hws, weights⟩
      refine Goes.give ⟨Plain.cons hw hws, fun unshared => ?_⟩
      have first := weight (unshared v List.mem_cons_self)
      have others := weights fun u hu => unshared u (List.mem_cons_of_mem _ hu)
      simp only [Value.weights]
      omega

end Readers

def backInFront (this : Option Value) (args : List Value) : List Value :=
  match this with
  | some v => v :: args.tail
  | none => args

theorem firstAsThis_held {k : ι → Held (Option Value) Value} {m : Machine} {first : Value}
    {rest : List Value} (h : L.HeldAt L.Object m L.plain fun i => k i (some first, m))
    (hargs : L.Plain (first :: rest)) :
    L.HeldAt L.Plain m L.plain fun i => firstAsThis (k i) (first :: rest, m) := by
  have zoomed : ∀ i, firstAsThis (k i) (first :: rest, m) =
      Held.zoom (some first) backInFront (k i) (first :: rest, m) := fun _ => rfl
  simp only [zoomed]
  apply h.zoom
  intro this hthis
  cases this with
  | none => exact hargs
  | some w => exact Plain.cons (hthis w rfl) hargs.tail

theorem finish_held (hev : L.Reads ev) {f : Native} (untagged : ∀ tag, f ≠ .tagged tag)
    {args : List Value} (hargs : L.Plain args) {m : Machine} :
    L.HeldAt L.Plain m L.plain fun i =>
      (do let a := (ev i).native f m.store args
          Held.setHeld a.args
          match a.result with
          | .ok v => return v
          | .error h => throw h : Held (List Value) Value) (args, m) := by
  obtain ⟨a, plain, fueled, agree⟩ := hev.native f m.store args hargs untagged
  cases result : a.result with
  | ok v =>
    refine .settled (.ok v (a.args, m)) (agree.mono fun i same => ?_) rfl
      ⟨rfl, plain.args, plain.result.2 v result⟩
    rw [same]
    change (match a.result with
      | .ok v => pure v
      | .error h => throw h : Held (List Value) Value) (a.args, m) = _
    rw [result]
    rfl
  | error e =>
    have allowed : L.allows e := by
      apply allows_fault (plain.result.1 e result)
      rintro rfl
      exact fueled result
    refine .settled (.error e (a.args, m)) (agree.mono fun i same => ?_) rfl
      ⟨rfl, plain.args, allowed⟩
    rw [same]
    change (match a.result with
      | .ok v => pure v
      | .error h => throw h : Held (List Value) Value) (a.args, m) = _
    rw [result]
    rfl

section Callbacks

variable {bound : Option Nat} (hcall : L.Calls ev bound)
include hcall

theorem callBack_held (pos : Position) {fn : Value} (hfn : L.plain fn) {args : List Value}
    (hargs : L.Plain args) {this : Option Value} (hthis : L.Object this)
    (light : L.Light bound (this.toList ++ fn :: args)) {m : Machine} (hm : L.Ready m) :
    L.HeldAt L.Object m L.plain fun i => callBack (ev i) pos fn args (this, m) := by
  cases fn with
  | fn name curry =>
    refine hcall name (curry ++ args) true pos this m hm (carries_curry hfn hargs) hthis ?_
    intro b eq
    have heavy := (light b eq).2.2
    simp only [Value.weights_append, Value.weights, Value.weight] at heavy ⊢
    omega
  | _ => exact Holds.fail _ .nowhere this m hm hthis

theorem callAlone_goes (pos : Position) {fn : Value} (hfn : L.plain fn) {args : List Value}
    (hargs : L.Plain args) (light : L.Light bound (fn :: args)) :
    L.Goes aside L.plain fun i => Held.drop none (callBack (ev i) pos fn args) :=
  fun _ hm => (callBack_held hcall pos hfn hargs object_none light hm).drop

theorem applyAll_holds (pos : Position) {fn : Value} (hfn : L.plain fn) {done rest : List Value}
    (hdone : L.Plain done) (hrest : L.Plain rest)
    (light : L.Light bound (fn :: rest)) :
    L.Holds L.Plain (fun _ => True) fun i => applyAll (ev i) pos fn done rest := by
  induction rest generalizing done with
  | nil => exact Holds.give trivial
  | cons v rest ih =>
    have one : L.Light bound [fn, v] := by
      refine light.imp ?_ ?_
      · exact fun h => Plain.cons hfn (Plain.cons (hrest v List.mem_cons_self) plain_nil)
      · simp only [Value.weights]
        omega
    have called : L.Goes True L.plain fun i => Held.drop none (callBack (ev i) pos fn [v]) :=
      callAlone_goes hcall pos hfn (Plain.cons (hrest v List.mem_cons_self) plain_nil) one
    apply Holds.bind (Holds.lift called)
    intro w hw
    apply Holds.bind (Holds.setHeld (hdone.append (Plain.cons hw hrest.tail)))
    intro _ _
    apply ih (hdone.append (Plain.cons hw plain_nil)) hrest.tail
    refine light.imp ?_ ?_
    · exact fun h => Plain.cons hfn hrest.tail
    · simp only [Value.weights]
      omega

variable (hev : L.Reads ev)
include hev

theorem applyNative_takes {f : Native} (hf : ∀ tag, f = .tagged tag → L.plain tag) (name : Text)
    (pos : Position) :
    L.Takes (fun args => L.Plain args ∧ L.Light bound args) L.Plain L.plain
      fun i => applyNative engine (ev i) f name pos := by
  rintro args m hm ⟨hargs, light⟩
  have alone : ∀ fn more, L.plain fn → L.Plain more → L.Light bound (fn :: more) →
      L.HeldAt L.Plain m L.plain fun i =>
        Held.lift (Held.drop none (callBack (ev i) pos fn more)) (args, m) :=
    fun fn more hfn hmore light =>
      Holds.lift (callAlone_goes hcall pos hfn hmore light) args m hm hargs
  have plain : ∀ v ∈ args, L.plain v := hargs
  cases f with
  | tagged tag =>
    have copies : L.Goes True L.Plain fun i => args.mapM (flatten (ev i)) :=
      Goes.mapM fun v hv => (flatten_goes hev (Stock.passes_of_plain (hargs v hv))).imp fun _ h => h.1
    refine Holds.bind (Holds.lift copies) (fun vs hvs => Holds.give ?_) args m hm hargs
    exact (L.course.custody.array _).mpr (Plain.cons (hf tag rfl) hvs)
  | core g => exact finish_held hev (by simp) hargs
  | host h =>
    have last : L.HeldAt L.Plain m L.plain fun i =>
        (do let a := (ev i).native (.host h) m.store args
            Held.setHeld a.args
            match a.result with
            | .ok v => return v
            | .error h => throw h : Held (List Value) Value) (args, m) :=
      finish_held hev (by simp) hargs
    cases h with
    | callWithArg =>
      rcases args with _ | ⟨fn, _ | ⟨v, _ | ⟨w, rest⟩⟩⟩
      case cons.cons.nil => exact alone fn [v] (plain fn (by simp)) hargs.tail light
      all_goals exact last
    | callWithout =>
      rcases args with _ | ⟨first, _ | ⟨fn, _ | ⟨w, rest⟩⟩⟩
      case cons.cons.nil =>
        refine alone fn [] (plain fn (by simp)) plain_nil (light.imp (fun h => h.tail) ?_)
        simp only [Value.weights]
        omega
      all_goals exact last
    | callOnFirst =>
      rcases args with _ | ⟨first, _ | ⟨fn, _ | ⟨v, _ | ⟨w, rest⟩⟩⟩⟩
      case cons.cons.cons.nil =>
        have called : L.HeldAt L.Object m L.plain fun i => callBack (ev i) pos fn [v] (some first, m) :=
          callBack_held hcall pos (plain fn (by simp)) hargs.tail.tail
            (object_some (plain first (by simp))) light hm
        exact firstAsThis_held called hargs
      all_goals exact last
    | applyAll =>
      rcases args with _ | ⟨first, _ | ⟨fn, _ | ⟨w, rest⟩⟩⟩
      case nil => exact last
      case cons.nil => cases first <;> exact last
      case cons.cons.cons => cases first <;> exact last
      case cons.cons.nil =>
        cases first with
        | array items =>
          have hitems : L.Plain items := (L.course.custody.array items).mp (plain _ (by simp))
          have applied : L.Holds L.Plain (fun _ => True) fun i => applyAll (ev i) pos fn [] items := by
            apply applyAll_holds hcall pos (plain fn (by simp)) plain_nil hitems
            refine light.imp (fun h => Plain.cons (plain fn (by simp)) hitems) ?_
            simp only [Value.weights, Value.weight]
            omega
          refine Holds.bind (Takes.zoom applied hitems ?_)
            (fun _ _ => Holds.give (L.course.custody.leaf _ rfl)) _ m hm hargs
          intro part args hpart hargs
          exact Plain.cons ((L.course.custody.array part).mpr hpart) hargs.tail
        | _ => exact last
    | contextInfo =>
      rcases args with _ | ⟨v, _ | ⟨w, rest⟩⟩
      case cons.nil =>
        have passes : L.passes v := Stock.passes_of_plain (plain v (by simp))
        refine Holds.bind (Holds.lift (typeOf_goes hev passes)) (fun t _ => Holds.give ?_) _ m hm hargs
        exact (L.course.custody.array _).mpr (HostFn.plain_leaves rfl)
      all_goals exact last
    | _ => exact last

theorem runNative_takes {f : Function} (hf : f.Fair L.course.custody) (name : Text) (pos : Position) :
    L.Takes (fun args => L.Plain args ∧ L.Light bound args) L.Plain L.plain
      fun i => runNative engine (ev i) f name pos := by
  rintro args m hm ⟨hargs, light⟩
  cases body : f.body with
  | script g =>
    simp only [runNative_script body]
    exact .const _ rfl ⟨rfl, hargs, trivial⟩
  | native n =>
    have fair : ∀ tag, n = .tagged tag → L.plain tag := fun tag eq => hf.native tag (by rw [body, eq])
    simp only [runNative_native body]
    refine (applyNative_takes hcall hev fair name pos args m hm ⟨hargs, light⟩).map fun out ends => ?_
    refine ⟨?_, ends.locatedAt fun _ _ hs => ⟨hs.1, hs.2.1, trivial⟩⟩
    cases out with
    | ok v s => rfl
    | error e s => cases e <;> rfl

theorem runChecked_takes {f : Function} (hf : f.Fair L.course.custody) (name : Text) (method : Bool)
    (pos : Position) :
    L.Takes (fun args => L.Plain args ∧ L.Light bound args) L.Plain L.plain
      fun i => runChecked engine (ev i) f name method pos := by
  intro args m hm hargs
  refine WorksAt.bind hm (runNative_takes hcall hev hf name pos args m hm hargs) ?_
  intro result args n _ hn hargs hresult
  refine Holds.bind (checkSize_holds result pos) (fun _ _ => ?_) args n hn hargs
  have done : L.Holds L.Plain L.plain fun _ : ι => pure result := Holds.give hresult
  apply Holds.bind Holds.held
  intro args _
  cases args with
  | nil => exact done
  | cons first rest =>
    cases method with
    | true => exact Holds.bind (checkSize_holds first pos) fun _ _ => done
    | false => exact done

theorem onFirst_takes {f : Overload} (hf : f.2.Fair L.course.custody) (name : Text) (method : Bool)
    (pos : Position) {rest : List Value} (hrest : L.Passing rest) :
    L.Takes (fun v => L.plain v ∧ L.Light bound (v :: rest)) L.plain L.plain fun i =>
      (do let copies ← Held.lift (passCopies (ev i) f.1.params.tail rest)
          let v ← Held.held
          Held.zoom (v :: copies) (fun args v => args.headD v)
            (runChecked engine (ev i) f.2 name method pos) : Held Value Value) := by
  apply Takes.lift_bind (passCopies_goes hev f.1.params.tail hrest)
  · rintro copies ⟨hcopies, weights⟩ v m hm ⟨hv, light⟩
    have light : L.Light bound (v :: copies) := by
      intro b eq
      obtain ⟨unspent, plain, le⟩ := light b eq
      have less := weights fun u hu => unshared (plain u (List.mem_cons_of_mem _ hu)) unspent
      refine ⟨unspent, Plain.cons hv hcopies, ?_⟩
      simp only [Value.weights] at le ⊢
      omega
    have checked := runChecked_takes hcall hev hf name method pos (v :: copies) m hm
      ⟨Plain.cons hv hcopies, light⟩
    exact checked.zoom fun args hargs => hargs.headD hv
  · exact fun v hv => hv.1

theorem callNative_takes {S : Value → Prop} (hS : L.Receiver S) {f : Overload}
    (hf : f.2.Fair L.course.custody) (name : Text) (method : Bool) (pos : Position) :
    L.Takes (fun args => L.Args S args ∧ L.Light bound args) (L.Args S) L.plain
      fun i => callNative engine (ev i) f name method pos := by
  rintro args m hm ⟨hargs, light⟩
  cases args with
  | nil =>
    refine (runChecked_takes hcall hev hf name method pos [] m hm ⟨plain_nil, light⟩).mono ?_ ?_
    · exact fun _ s hs => ⟨hs.1, hs.2.1.args hS, hs.2.2⟩
    · exact fun _ s hs => ⟨hs.1, hs.2.1.args hS, hs.2.2⟩
  | cons first rest =>
    have hfirst : S first := hargs.1 first rfl
    have hrest : L.Passing rest := hargs.2
    have passes : L.passes first := hS.passes first hfirst
    have call := onFirst_takes hcall hev hf name method pos hrest
    -- The branch where the first argument becomes a float.
    have converted : L.Holds (L.Args S) L.plain fun i =>
        (do let v ← Held.lift (flatten (ev i) first)
            Held.lift (Held.drop (toFloat v)
              (do let copies ← Held.lift (passCopies (ev i) f.1.params.tail rest)
                  let v ← Held.held
                  Held.zoom (v :: copies) (fun args v => args.headD v)
                    (runChecked engine (ev i) f.2 name method pos) : Held Value Value))) := by
      apply Holds.bind (Holds.lift (flatten_goes hev passes))
      rintro v ⟨hv, same⟩
      refine Holds.lift (call.drop ⟨toFloat_plain hv, ?_⟩)
      intro b eq
      obtain ⟨unspent, plain, le⟩ := light b eq
      rw [same (unshared (plain first List.mem_cons_self) unspent)] at hv ⊢
      refine ⟨unspent, Plain.cons (toFloat_plain hv) plain.tail, ?_⟩
      simpa only [Value.weights, Value.weight_toFloat] using le
    -- The branch where it is worked on in place.
    have inPlace : L.Takes (· = first :: rest) (L.Args S) L.plain fun i =>
        Held.zoom first (fun v args => v :: args.tail) (Held.behind [] pos
          (do let copies ← Held.lift (passCopies (ev i) f.1.params.tail rest)
              let v ← Held.held
              Held.zoom (v :: copies) (fun args v => args.headD v)
                (runChecked engine (ev i) f.2 name method pos) : Held Value Value)) := by
      rintro _ n hn rfl
      cases bound with
      | none =>
        have all : L.Holds L.plain L.plain _ := fun v m hm hv => call v m hm ⟨hv, light_none _⟩
        exact (hS.behind [] pos all first n hn hfirst).zoom fun v hv => Args.cons hv hrest
      | some b =>
        obtain ⟨unspent, plain, -⟩ := light b rfl
        have own : first.isShared = false := unshared (plain first List.mem_cons_self) unspent
        have worked := call first n hn ⟨plain first List.mem_cons_self, light⟩
        cases first with
        | shared c => cases own
        | _ => exact worked.zoom fun v hv => Args.cons (hS.plain v hv) hrest
    have stays : ∀ args, args = first :: rest → L.Args S args := by
      rintro _ rfl
      exact hargs
    change L.HeldAt (L.Args S) m L.plain fun i =>
      (Held.lift (needsFloat (ev i) (f.1.params.headD .any) first) >>= fun needs =>
        if (!method && needs) = true then _ else _ : Held (List Value) Value) (first :: rest, m)
    refine Takes.lift_bind (P := (· = first :: rest)) (needsFloat_goes hev _ passes) (fun needs _ => ?_)
      stays (first :: rest) m hm rfl
    by_cases both : (!method && needs) = true
    · simp only [if_pos both]
      exact fun args n hn eq => converted args n hn (stays args eq)
    · simp only [if_neg both]
      exact inPlace

omit hcall hev in
theorem native?_fair {name : Text} {types : List ValueType} {method : Bool} {f : Overload}
    (found : engine.native? name types method = some f) : f.2.Fair L.course.custody := by
  obtain ⟨m, mem, own⟩ := Engine.native?_mem found
  exact (L.natives m mem).functions f own

theorem tryNative_takes {S : Value → Prop} (hS : L.Receiver S) (name : Text) (method : Bool)
    (pos : Position) :
    L.Takes (fun args => L.Args S args ∧ L.Light bound args) (L.Args S) L.Object
      fun i => tryNative engine (ev i) name method pos := by
  rintro args m hm ⟨hargs, light⟩
  have passing : L.Passing args := by
    cases args with
    | nil => simp [Passing]
    | cons v rest => exact List.forall_mem_cons.mpr ⟨hS.passes v (hargs.1 v rfl), hargs.2⟩
  change L.HeldAt (L.Args S) m L.Object fun i =>
    (Held.lift (typesOf (ev i) args) >>= fun types => _ : Held (List Value) (Option Value)) (args, m)
  refine Takes.lift_bind (P := (· = args)) (typesOf_goes hev passing) (fun types _ => ?_)
    (by rintro _ rfl; exact hargs) args m hm rfl
  rintro _ n hn rfl
  cases found : engine.native? name types method with
  | none => exact Holds.give object_none _ n hn hargs
  | some f =>
    refine WorksAt.bind hn (callNative_takes hcall hev hS (native?_fair found) name method pos _ n hn
      ⟨hargs, light⟩) ?_
    exact fun v args o _ ho hargs hv => Holds.give (object_some hv) args o ho hargs

omit hcall hev in
theorem asFirst_takes {α : Type} {S : Value → Prop} {Q : α → Prop} {k : ι → Held (List Value) α}
    {rest : List Value}
    (hk : L.Takes (fun args => L.Args S args ∧ L.Light bound args) (L.Args S) Q k)
    (hrest : L.Passing rest) :
    L.Takes (fun v => S v ∧ L.Light bound (v :: rest)) S Q fun i => asFirst rest (k i) := by
  rintro v m hm ⟨hv, light⟩
  exact (hk (v :: rest) m hm ⟨Args.cons hv hrest, light⟩).zoom fun args hargs => hargs.headD hv

theorem tryMethod_takes (name : Text) {rest : List Value} (hrest : L.Passing rest) (pos : Position) :
    L.Takes (fun v => L.plain v ∧ L.Light bound (v :: rest)) L.plain L.Object
      fun i => tryMethod engine (ev i) name rest pos :=
  asFirst_takes (tryNative_takes hcall hev receiver_plain name true pos) hrest

end Callbacks

def Unnamed (L : Survey engine ι) : Prop :=
  ∀ name, L.course.custody.lends name → ∀ types method, engine.native? name types method = none

section Functions

variable (exec : ∀ looping s, L.Permits looping (.stmt s) →
  L.Goes False L.plain fun i => (ev i).exec s)
include exec

theorem execAll_goes {looping : Bool} {last : Value} (hlast : L.plain last) {body : List Stmt}
    (hbody : ∀ s ∈ body, L.Permits looping (.stmt s)) :
    L.Goes False L.plain fun i => execAll (ev i).exec last body := by
  induction body generalizing last with
  | nil => exact Goes.give hlast
  | cons stmt rest ih =>
    apply Goes.bind (exec looping stmt (hbody stmt List.mem_cons_self))
    intro v hv
    exact ih hv fun s hs => hbody s (List.mem_cons_of_mem _ hs)

theorem runBlock_goes {looping : Bool} {body : List Stmt}
    (hbody : ∀ s ∈ body, L.Permits looping (.stmt s)) :
    L.Goes False L.plain fun i => runBlock (ev i) body :=
  (execAll_goes exec L.course.custody.plain_unit hbody).block

theorem runBody_goes {body : List Stmt} (hbody : ∀ s ∈ body, L.Permits false (.stmt s)) :
    L.Goes False L.plain fun i => runBody (ev i) body := by
  intro m hm
  simp only [runBody_eq]
  exact (runBlock_goes exec hbody).caughtReturn m hm

theorem callScript_held {target : Target} {m : Machine} (callable : L.Callable m target)
    {args : List Value} (hargs : L.Passing args) (pos : Position) {this : Option Value}
    (hthis : L.Object this) (hm : L.Ready m) :
    L.HeldAt L.Object m L.plain fun i => callScript engine (ev i) target args pos (this, m) := by
  have scope : ∀ e ∈ bindParams target.function.params args [], L.passes e.value := by
    intro e he
    rcases mem_bindParams he with none | arg
    · cases none
    · exact hargs _ arg
  change L.HeldAt L.Object m L.plain fun i =>
    (if 0 < engine.limits.callLevels ∧ engine.limits.callLevels ≤ m.depth then _ else _ :
      Held (Option Value) Value) (this, m)
  by_cases tooDeep : 0 < engine.limits.callLevels ∧ engine.limits.callLevels ≤ m.depth
  · simp only [if_pos tooDeep]
    exact .const _ rfl ⟨rfl, hthis, trivial⟩
  · simp only [if_neg tooDeep]
    exact inFrame_held (runBody_goes exec callable.body) scope callable.library hthis hm

variable {bound : Option Nat} (hcall : L.Calls ev bound) (hev : L.Reads ev)
include hcall hev

omit exec hcall in
theorem orNotFound_holds (name : Text) {args : List Value} (hargs : L.Passing args) (pos : Position)
    (found : Option Value) : L.Object found →
    L.Holds L.Object L.plain fun i => (match found with
        | some v => pure v
        | none => do
          let this ← Held.held
          Held.lift (notFound engine (ev i) name (this.toList ++ args) pos) :
        Held (Option Value) Value) := by
  intro hfound
  cases found with
  | some v => exact Holds.give (hfound v rfl)
  | none =>
    apply Holds.bind Holds.held
    intro this hthis
    apply Holds.lift
    apply notFound_goes hev
    refine List.forall_mem_append.mpr ⟨fun v hv => ?_, hargs⟩
    exact Stock.passes_of_plain (hthis v (Option.mem_toList.mp hv))

omit exec hcall in
theorem tryNative_missing {name : Text} {method : Bool}
    (missing : ∀ types, engine.native? name types method = none) {args : List Value}
    (hargs : L.Passing args) (pos : Position) {m : Machine} (hm : L.Ready m) :
    L.HeldAt (· = args) m L.Object fun i => tryNative engine (ev i) name method pos (args, m) := by
  change L.HeldAt (· = args) m L.Object fun i =>
    (Held.lift (typesOf (ev i) args) >>= fun types => _ : Held (List Value) (Option Value)) (args, m)
  refine WorksAt.lift_bind hm (typesOf_goes hev hargs m hm) (fun types n _ hn _ => ?_) rfl
  simp only [missing types]
  exact Holds.give object_none args n hn rfl

theorem callNamed_held (bounded : bound.isSome = true → ¬ L.spent ∧ L.Unnamed) (name : Text)
    {args : List Value} (hargs : L.Carries name args) (exposedOnly : Bool) (pos : Position)
    {this : Option Value} (hthis : L.Object this)
    (weight : ∀ b, bound = some b → Value.weights (this.toList ++ args) ≤ b) {m : Machine}
    (hm : L.Ready m) :
    L.HeldAt L.Object m L.plain fun i => callNamed engine (ev i) name args exposedOnly pos (this, m) := by
  have last : ∀ found, L.Object found → L.Holds L.Object L.plain fun i => (match found with
      | some v => pure v
      | none => do
        let this ← Held.held
        Held.lift (notFound engine (ev i) name (this.toList ++ args) pos) :
      Held (Option Value) Value) := orNotFound_holds hev name hargs.passing pos
  refine WorksAt.lift_bind hm (scriptFn?_at name args.length exposedOnly hm) ?_ hthis
  intro found n onward hn hfound
  cases found with
  | some target =>
    exact callScript_held exec (hfound target rfl) hargs.passing pos hthis hn
  | none =>
    -- Natives of a bounded call get plain arguments, or else there is none of the name.
    have native : ∀ method, (∀ types, engine.native? name types method = none) ∨
        L.Light bound (this.toList ++ args) := by
      intro method
      cases bound with
      | none => exact Or.inr (light_none _)
      | some b =>
        obtain ⟨unspent, unnamed⟩ := bounded rfl
        by_cases plain : L.Plain args
        · refine Or.inr fun b' eq => ⟨unspent, ?_, weight b' eq⟩
          exact Plain.append (fun v hv => hthis v (Option.mem_toList.mp hv)) plain
        · refine Or.inl fun types => unnamed name ?_ types method
          refine Classical.byContradiction fun unlent => plain fun v hv => ?_
          exact (hargs v hv).resolve_right fun h => unlent h.2
    cases this with
    | some v =>
      have plain : L.plain v := hthis v rfl
      have tried : L.HeldAt L.Object n L.Object fun i => Held.zoom v (fun v _ => some v)
          (asFirst args (tryNative engine (ev i) name true pos)) (some v, n) := by
        rcases native true with missing | light
        · have passing : L.Passing (v :: args) :=
            List.forall_mem_cons.mpr ⟨Stock.passes_of_plain plain, hargs.passing⟩
          refine WorksAt.zoom (S := L.plain) ?_ fun w hw => object_some hw
          refine (tryNative_missing hev missing passing pos hn).zoom ?_
          rintro _ rfl
          exact plain
        · have called := tryMethod_takes hcall hev name hargs.passing pos v n hn ⟨plain, light⟩
          exact called.zoom fun w hw => object_some hw
      change L.HeldAt L.Object n L.plain fun i => (Held.zoom v (fun v _ => some v)
        (asFirst args (tryNative engine (ev i) name true pos)) >>= fun found => _) (some v, n)
      exact WorksAt.bind hn tried fun found this o _ ho hthis hfound => last found hfound this o ho hthis
    | none =>
      have tried : L.At True n (fun _ => L.Object) fun i =>
          Held.drop args (tryNative engine (ev i) name false pos) n := by
        rcases native false with missing | light
        · exact (tryNative_missing hev missing hargs.passing pos hn).drop
        · exact (tryNative_takes hcall hev receiver_passing name false pos args n hn
            ⟨hargs.passing.args, light⟩).drop
      refine WorksAt.lift_bind hn tried (fun found o _ ho hfound => ?_) object_none
      exact last found hfound none o ho object_none

end Functions

theorem HeldAt.asThis {α : Type} {Q : α → Prop} {k : ι → Held (Option Value) α} {m : Machine}
    {v : Value} (h : L.HeldAt L.Object m Q fun i => k i (some v, m)) {w : Value} (hw : L.plain w) :
    L.HeldAt L.plain m Q fun i => Held.zoom (some v) (fun this v => this.getD v) (k i) (w, m) := by
  apply h.zoom
  intro this hthis
  cases this with
  | none => exact hw
  | some u => exact hthis u rfl

section Calls

variable (hev : L.Evaluates ev)
include hev

theorem tryNative_holds {S : Value → Prop} (hS : L.Receiver S) (name : Text) (method : Bool)
    (pos : Position) :
    L.Holds (L.Args S) L.Object fun i => tryNative engine (ev i) name method pos :=
  fun args m hm hargs => tryNative_takes hev.call hev.toReads hS name method pos args m hm
    ⟨hargs, light_none _⟩

theorem tryPlain_goes (name : Text) {args : List Value} (hargs : L.Plain args) (pos : Position) :
    L.Goes aside L.Object fun i => Held.drop args (tryNative engine (ev i) name false pos) :=
  (tryNative_holds hev receiver_plain name false pos).drop (hargs.args receiver_plain)

theorem tryMethod_holds (name : Text) {rest : List Value} (hrest : L.Passing rest) (pos : Position) :
    L.Holds L.plain L.Object fun i => tryMethod engine (ev i) name rest pos :=
  fun v m hm hv => tryMethod_takes hev.call hev.toReads name hrest pos v m hm ⟨hv, light_none _⟩

theorem callNative_goes {f : Overload} (hf : f.2.Fair L.course.custody) (name : Text)
    {args : List Value} (hargs : L.Plain args) (pos : Position) :
    L.Goes aside L.plain fun i => Held.drop args (callNative engine (ev i) f name false pos) := by
  apply (callNative_takes hev.call hev.toReads receiver_plain hf name false pos).drop
  exact ⟨hargs.args receiver_plain, light_none _⟩

theorem callScript_at {target : Target} {m : Machine} (callable : L.Callable m target)
    {args : List Value} (hargs : L.Passing args) (pos : Position) (hm : L.Ready m) :
    L.At aside m (fun _ => L.plain) fun i => Held.drop none (callScript engine (ev i) target args pos) m :=
  (callScript_held hev.exec callable hargs pos object_none hm).drop

theorem callByValue_goes (name : Text) {args : List Value} (hargs : L.Plain args) (pos : Position) :
    L.Goes aside L.plain fun i => callByValue engine (ev i) name args pos := by
  apply Goes.bind (tryPlain_goes hev name hargs pos)
  intro found hfound
  cases found with
  | some v => exact Goes.give (hfound v rfl)
  | none =>
    have missing : L.Goes aside L.plain fun i => notFound engine (ev i) name args pos :=
      notFound_goes hev.toReads name hargs.passing pos
    by_cases equal : args.length = 2 ∧ name = Text.lit "=="
    · simp only [if_pos equal]
      exact Goes.give (L.course.custody.plain_bool _)
    · by_cases unequal : args.length = 2 ∧ name = Text.lit "!="
      · simp only [if_neg equal, if_pos unequal]
        exact Goes.give (L.course.custody.plain_bool _)
      · simp only [if_neg equal, if_neg unequal]
        exact missing

theorem callMethod_holds (name : Text) {args : List Value} (hargs : L.Plain args) (pos : Position) :
    L.Holds L.plain L.plain fun i => callMethod engine (ev i) name args pos := by
  intro v m hm hv
  refine WorksAt.lift_bind hm (scriptFn?_at name args.length false hm) ?_ hv
  intro found n onward hn hfound
  cases found with
  | some target =>
    have callable := hfound target rfl
    exact (callScript_held hev.exec callable hargs.passing pos (object_some hv) hn).asThis hv
  | none =>
    refine Holds.bind (tryMethod_holds hev name hargs.passing pos) (fun found hfound => ?_) v n hn hv
    cases found with
    | some w => exact Holds.give (hfound w rfl)
    | none =>
      apply Holds.bind Holds.held
      intro w hw
      exact Holds.lift (notFound_goes hev.toReads name (Plain.cons hw hargs).passing pos)

end Calls

end Scripting.Survey
