import Scripting.Proofs.Contract.Call

/-
Native calls side by side. This is the one place where the two sides may calculate differently.
-/
namespace Scripting

theorem Engine.native?_mem {engine : Engine} {name : Text} {types : List ValueType} {method : Bool}
    {f : Overload} (found : engine.native? name types method = some f) :
    ∃ m ∈ engine.nativeModules, f ∈ m.functions := by
  unfold Engine.native? at found
  split at found
  · next g exact =>
    cases found
    obtain ⟨m, mem, hg⟩ := List.exists_of_findSome?_eq_some exact
    exact ⟨m, mem, Module.withTypes?_mem hg⟩
  · obtain ⟨⟨g, cost⟩, best, rfl⟩ := Option.map_eq_some_iff.mp found
    refine List.foldlRecOn
      (motive := fun best => ∀ g c, best = some (g, c) → ∃ m ∈ engine.nativeModules, g ∈ m.functions)
      engine.nativeModules _ (by simp) ?_ g cost best
    intro best hbest m hm x c chosen
    have own := @Module.promoted?_mem m name types method false
    unfold Engine.better Module.cheaper at chosen
    grind

end Scripting

namespace Scripting.Eval

variable {engine : Engine} {C : Contract engine} {ev ev' : Evaluator}

open Contract

theorem finish_holds {a : Applied} (h : a.Plain C.kind) :
    C.Holds C.Plain C.kind.plain
      (do Held.setHeld a.args
          match a.result with
          | .ok v => return v
          | .error e => throw e)
      (do Held.setHeld a.args
          match a.result with
          | .ok v => return v
          | .error e => throw e) := by
  refine Holds.bind (Holds.setHeld h.args) fun _ _ => ?_
  cases result : a.result with
  | ok v => exact Holds.give (h.result.2 v result)
  | error e => exact Holds.stop (signal_of_fault (h.result.1 e result))

theorem firstAsThis_holds {k k' : Held (Option Value) Value} (hk : C.Holds C.Object C.kind.plain k k') :
    C.Holds C.Plain C.kind.plain (firstAsThis k) (firstAsThis k') := by
  refine Holds.bind Holds.held fun args hargs => ?_
  refine Holds.zoom hk ?_ ?_
  · intro v eq
    exact hargs v (List.mem_of_mem_head? eq)
  · intro this args hthis hargs
    cases this with
    | none => exact hargs
    | some v => exact Plain.cons (hthis v rfl) hargs.tail

/-- Where the arithmetic of the two sides differs, the first side fails and is excused. -/
theorem applyCore_holds (f : CoreFn) {args : List Value} (hargs : C.Plain args) {m : Machine}
    (hm : C.Inv m) (fuel : Nat) :
    C.HoldsAt C.Plain m C.kind.plain
      ((do Held.setHeld (f.apply engine.arithmetic m.store fuel args).args
           match (f.apply engine.arithmetic m.store fuel args).result with
           | .ok v => return v
           | .error e => throw e : Held (List Value) Value) (args, m))
      ((do Held.setHeld (f.apply C.mode m.store fuel args).args
           match (f.apply C.mode m.store fuel args).result with
           | .ok v => return v
           | .error e => throw e : Held (List Value) Value) (args, m)) := by
  rcases C.calculates f m.store fuel args with ⟨h, result, excused⟩ | same
  · rw [result]
    exact .excused excused
  · rw [same]
    exact finish_holds (CoreFn.apply_plain engine.arithmetic m.store fuel f hargs) args m hm hargs

section

variable (hev : C.Evaluators ev ev')
include hev

theorem applyNative_holds {f : Native} (hf : ∀ tag, f = .tagged tag → C.kind.plain tag) (name : Text)
    (pos : Position) :
    C.Holds C.Plain C.kind.plain (applyNative engine ev f name pos)
      (applyNative (engine.inMode C.mode) ev' f name pos) := by
  refine Holds.held_bind fun args m hm hargs => ?_
  dsimp only
  split
  case h_1 tag =>
    have copies : C.Keeps C.Plain (args.mapM (flatten ev)) (args.mapM (flatten ev')) :=
      Keeps.mapM fun v hv => flatten_keeps hev (Stock.passes_of_plain (hargs v hv))
    refine Holds.bind (Holds.lift copies) (fun vs hvs => Holds.give ?_) args m hm hargs
    exact (C.kind.array _).mpr (Plain.cons (hf tag rfl) hvs)
  case h_2 fn v =>
    have called := callAlone_keeps hev pos (hargs fn (by simp)) hargs.tail.passing
    exact Holds.lift called _ m hm hargs
  case h_3 first fn =>
    have called := callAlone_keeps hev pos (hargs fn (by simp)) hargs.tail.tail.passing
    exact Holds.lift called _ m hm hargs
  case h_4 first fn v =>
    have called := callBack_holds hev pos (hargs fn (by simp)) hargs.tail.tail.passing
    exact firstAsThis_holds called _ m hm hargs
  case h_5 items fn =>
    have hitems : C.Plain items := (C.kind.array items).mp (hargs _ List.mem_cons_self)
    have applied := applyAll_holds hev pos (hargs fn (by simp)) plain_nil hitems
    refine Holds.bind (Holds.zoom applied hitems ?_) (fun _ _ => Holds.give (C.kind.leaf _ rfl)) _ m hm
      hargs
    intro part args hpart hargs
    exact Plain.cons ((C.kind.array part).mpr hpart) hargs.tail
  case h_6 v =>
    refine Holds.bind (Holds.lift (typeOf_keeps hev v)) (fun t _ => Holds.give ?_) _ m hm hargs
    exact (C.kind.array _).mpr (HostFn.plain_leaves rfl)
  case h_7 f =>
    rw [hev.native, hev.native']
    exact applyCore_holds f hargs hm ev.fuel
  case h_8 =>
    rw [hev.native, hev.native']
    exact finish_holds (HostFn.apply_plain m.store ev.fuel _ hargs) args m hm hargs

theorem runNative_holds {f : Function} (hf : f.Fair C.kind) (name : Text) (pos : Position) :
    C.Holds C.Plain C.kind.plain (runNative engine ev f name pos)
      (runNative (engine.inMode C.mode) ev' f name pos) := by
  intro args m hm hargs
  cases body : f.body with
  | native n =>
    have fair : ∀ tag, n = .tagged tag → C.kind.plain tag :=
      fun tag eq => hf.native tag (by rw [body, eq])
    rw [runNative_native body, runNative_native body]
    refine (applyNative_holds hev fair name pos args m hm hargs).locatedAt ?_ fun e => C.located e pos
    exact fun _ _ hs => ⟨hs.1, hs.2.1, signal_of_fault rfl⟩
  | script g =>
    rw [runNative_script body, runNative_script body]
    exact .error ⟨hargs, step_refl hm, signal_of_fault rfl⟩

theorem runChecked_holds {f : Function} (hf : f.Fair C.kind) (name : Text) (method : Bool)
    (pos : Position) :
    C.Holds C.Plain C.kind.plain (runChecked engine ev f name method pos)
      (runChecked (engine.inMode C.mode) ev' f name method pos) := by
  have sized : ∀ v, C.Holds C.Plain (fun _ => True) (liftM (checkSize engine v pos))
      (liftM (checkSize engine v pos)) :=
    fun v => Holds.look (checkSize_faults v pos) fun _ _ => trivial
  refine Holds.bind (runNative_holds hev hf name pos) fun result hresult => ?_
  refine Holds.bind (sized result) fun _ _ => ?_
  refine Holds.bind Holds.held fun args hargs => ?_
  have done : C.Holds C.Plain C.kind.plain (pure result) (pure result) := Holds.give hresult
  cases args with
  | nil => exact done
  | cons first rest =>
    cases method with
    | true => exact Holds.bind (sized first) fun _ _ => done
    | false => exact done

theorem callNative_holds {S : Value → Prop} (hS : C.Receiver S) {f : Overload}
    (hf : f.2.Fair C.kind) (name : Text) (method : Bool) (pos : Position) :
    C.Holds (C.Args S) C.kind.plain (callNative engine ev f name method pos)
      (callNative (engine.inMode C.mode) ev' f name method pos) := by
  have checked := runChecked_holds hev hf name method pos
  refine Holds.held_bind fun args m hm hargs => ?_
  cases args with
  | nil =>
    have plain : ∀ args, C.Plain args → C.Args S args := fun args h =>
      ⟨fun v eq => hS.plain v (h v (List.mem_of_mem_head? eq)), h.tail.passing⟩
    refine (checked [] m hm plain_nil).mono ?_ ?_
    · exact fun _ _ h => ⟨plain _ h.1, h.2⟩
    · exact fun _ _ h => ⟨plain _ h.1, h.2⟩
  | cons first rest =>
    have hfirst : S first := hargs.1 first rfl
    have hrest : C.Passing rest := hargs.2
    dsimp only
    -- The call itself, on a first argument that is plain.
    have call : C.Holds C.kind.plain C.kind.plain
        (do let copies ← Held.lift (passCopies ev f.1.params.tail rest)
            let v ← Held.held
            Held.zoom (v :: copies) (fun args v => args.headD v)
              (runChecked engine ev f.2 name method pos))
        (do let copies ← Held.lift (passCopies ev' f.1.params.tail rest)
            let v ← Held.held
            Held.zoom (v :: copies) (fun args v => args.headD v)
              (runChecked (engine.inMode C.mode) ev' f.2 name method pos)) := by
      refine Holds.bind (Holds.lift (passCopies_keeps hev _ hrest)) fun copies hcopies => ?_
      refine Holds.bind Holds.held fun v hv => ?_
      exact Holds.zoom checked (Plain.cons hv hcopies) fun args v hargs hv => hargs.headD hv
    refine Holds.bind (Holds.lift (needsFloat_keeps hev _ first)) (fun needs _ => ?_) (first :: rest) m
      hm hargs
    split
    · refine Holds.bind (Holds.lift (flatten_keeps hev (hS.passes first hfirst))) fun v hv => ?_
      exact Holds.lift (call.drop (plain_toFloat hv))
    · refine Holds.zoom (hS.behind [] pos call) hfirst ?_
      exact fun v args hv hargs => Args.cons hv hargs.2

omit hev in
theorem fair_native {name : Text} {types : List ValueType} {method : Bool} {f : Overload}
    (found : engine.native? name types method = some f) : f.2.Fair C.kind := by
  obtain ⟨m, mem, own⟩ := Engine.native?_mem found
  exact (C.natives m mem).functions f own

theorem tryNative_holds {S : Value → Prop} (hS : C.Receiver S) (name : Text) (method : Bool)
    (pos : Position) :
    C.Holds (C.Args S) C.Object (tryNative engine ev name method pos)
      (tryNative (engine.inMode C.mode) ev' name method pos) := by
  refine Holds.bind Holds.held fun args _ => ?_
  refine Holds.bind (Holds.lift (typesOf_keeps hev args)) fun types _ => ?_
  rw [Engine.inMode_native?]
  cases found : engine.native? name types method with
  | none => exact Holds.give (fun v none => by cases none)
  | some f =>
    refine Holds.bind (callNative_holds hev hS (fair_native found) name method pos) fun v hv => ?_
    refine Holds.give ?_
    intro w eq
    cases eq
    exact hv

omit hev in
theorem asFirst_holds {α : Type} {S : Value → Prop} {Q : α → Prop} {k k' : Held (List Value) α}
    {rest : List Value} (hk : C.Holds (C.Args S) Q k k') (hrest : C.Passing rest) :
    C.Holds S Q (asFirst rest k) (asFirst rest k') := by
  refine Holds.bind Holds.held fun v hv => ?_
  exact Holds.zoom hk (Args.cons hv hrest) fun args v hargs hv => hargs.headD hv

theorem tryMethod_holds (name : Text) {rest : List Value} (hrest : C.Passing rest) (pos : Position) :
    C.Holds C.kind.plain C.Object (tryMethod engine ev name rest pos)
      (tryMethod (engine.inMode C.mode) ev' name rest pos) :=
  asFirst_holds (tryNative_holds hev receiver_plain name true pos) hrest

theorem callByValue_keeps (name : Text) {args : List Value} (hargs : C.Passing args) (pos : Position) :
    C.Keeps C.kind.plain (callByValue engine ev name args pos)
      (callByValue (engine.inMode C.mode) ev' name args pos) := by
  have tried := (tryNative_holds hev receiver_passing name false pos).drop hargs.args
  refine Keeps.bind tried fun found hfound => ?_
  cases found with
  | some v => exact Keeps.give (hfound v rfl)
  | none =>
    dsimp only
    split
    · exact Keeps.give (C.kind.plain_bool _)
    · split
      · exact Keeps.give (C.kind.plain_bool _)
      · exact notFound_keeps hev name args pos

omit hev in
theorem asThis_holds {α : Type} {Q : α → Prop} {k k' : Held (Option Value) α}
    (hk : C.Holds C.Object Q k k') {v : Value} (hv : C.kind.plain v) :
    C.Holds C.kind.plain Q (Held.zoom (some v) (fun this v => this.getD v) k)
      (Held.zoom (some v) (fun this v => this.getD v) k') := by
  refine Holds.zoom hk ?_ ?_
  · intro w eq
    cases eq
    exact hv
  · intro this v hthis hv
    cases this with
    | none => exact hv
    | some w => exact hthis w rfl

theorem callMethod_holds (name : Text) {args : List Value} (hargs : C.Passing args) (pos : Position) :
    C.Holds C.kind.plain C.kind.plain (callMethod engine ev name args pos)
      (callMethod (engine.inMode C.mode) ev' name args pos) := by
  refine Holds.bind (Holds.lift (scriptFn?_keeps name args.length false)) fun found hfound => ?_
  cases found with
  | some target =>
    refine Holds.bind Holds.held fun v hv => ?_
    exact asThis_holds (callScript_holds hev (hfound target rfl) hargs pos) hv
  | none =>
    refine Holds.bind (tryMethod_holds hev name hargs pos) fun found hfound => ?_
    cases found with
    | some v => exact Holds.give (hfound v rfl)
    | none => exact Holds.bind Holds.held fun v _ => Holds.lift (notFound_keeps hev name _ pos)

theorem orNotFound_holds (name : Text) (args : List Value) (pos : Position) (found : Option Value) :
    C.Object found → C.Holds C.Object C.kind.plain
      (match found with
        | some v => pure v
        | none => do
          let this ← Held.held
          Held.lift (notFound engine ev name (this.toList ++ args) pos))
      (match found with
        | some v => pure v
        | none => do
          let this ← Held.held
          Held.lift (notFound (engine.inMode C.mode) ev' name (this.toList ++ args) pos)) := by
  intro hfound
  cases found with
  | some v => exact Holds.give (hfound v rfl)
  | none => exact Holds.bind Holds.held fun this _ => Holds.lift (notFound_keeps hev name _ pos)

theorem callNamed_holds (name : Text) {args : List Value} (hargs : C.Passing args)
    (exposedOnly : Bool) (pos : Position) :
    C.Holds C.Object C.kind.plain (callNamed engine ev name args exposedOnly pos)
      (callNamed (engine.inMode C.mode) ev' name args exposedOnly pos) := by
  refine Holds.bind (Holds.lift (scriptFn?_keeps name args.length exposedOnly)) fun found hfound => ?_
  cases found with
  | some target => exact callScript_holds hev (hfound target rfl) hargs pos
  | none =>
    refine Holds.bind Holds.held fun this hthis => ?_
    have last := orNotFound_holds hev name args pos
    -- A native function works on the held value, or only on its arguments.
    cases this with
    | some v =>
      refine Holds.bind (Holds.zoom (tryMethod_holds hev name hargs pos) (hthis v rfl) ?_) last
      intro v _ hv _ w eq
      cases eq
      exact hv
    | none =>
      have tried := (tryNative_holds hev receiver_passing name false pos).drop hargs.args
      exact Holds.bind (Holds.lift tried) last

end

end Scripting.Eval
