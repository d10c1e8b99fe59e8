import Scripting.Proofs.Twin.Reading

/-
Twin runs of what evaluation is made of, and of calls. A function has a frame of its own, so nothing
that it does touches the marks of its caller's variables, whatever it exports itself.
-/
namespace Scripting

structure Engine.Follows (engine : Engine) (ev ev' : Evaluator) : Prop where
  fuel : ev.fuel ≤ ev'.fuel
  native : ∀ f s args, (ev.native f s args).Fuller (ev'.native f s args)
  eval : ∀ e, Goes engine (Code.expr e).Exportless (ev.eval e) (ev'.eval e)
  exec : ∀ stmt, Goes engine (Code.stmt stmt).Exportless (ev.exec stmt) (ev'.exec stmt)
  call : ∀ quiet name args exposedOnly pos, Goes engine quiet (ev.callNamed name args exposedOnly pos)
    (ev'.callNamed name args exposedOnly pos)

namespace Eval

variable {engine : Engine} {quiet : Prop} {ev ev' : Evaluator}

theorem fail_goes {α : Type} (cause : Cause) (pos : Position) :
    Goes engine (α := α) quiet (Run.fail cause pos) (Run.fail cause pos) := Goes.stop _

theorem stops_of_stop? {operations : Nat} {cause : Cause} (h : engine.stop? operations = some cause)
    (pos : Position) : engine.Stops (.cause cause pos) := by
  unfold Engine.stop? at h
  split at h
  · next beyond =>
    cases h
    exact beyond.1
  · cases watched : engine.progress with
    | none => simp only [watched, reduceCtorEq] at h
    | some stop =>
      simp only [watched] at h
      split at h
      · next reached =>
        cases h
        exact ⟨stop, watched, reached.1⟩
      · cases h

/-- One of two twin runs may stop at an operation at which the other goes on. -/
theorem tick_goes (pos : Position) : Goes engine quiet (tick engine pos) (tick engine pos) := by
  intro m m' counted
  rw [tick_eq, tick_eq]
  cases first : engine.stop? (m.operations + 1) with
  | some cause => exact .stopped (stops_of_stop? first pos)
  | none =>
    cases second : engine.stop? (m'.operations + 1) with
    | some cause => exact .halted (stops_of_stop? second pos)
    | none =>
      obtain ⟨_, _, rfl⟩ := counted
      exact .ok ⟨⟨_, _, rfl⟩, fun _ => List.suffix_refl _⟩

theorem tick_cases (engine : Engine) (pos : Position) (m : Machine) :
    (∃ n, tick engine pos m = .ok () n ∧ m.Counted n) ∨
      ∃ h n, tick engine pos m = .error h n ∧ engine.Stops h := by
  rw [tick_eq]
  cases stopped : engine.stop? (m.operations + 1) with
  | none => exact Or.inl ⟨_, rfl, _, _, rfl⟩
  | some cause => exact Or.inr ⟨_, _, rfl, stops_of_stop? stopped pos⟩

theorem say_goes (message : Message) :
    Goes engine quiet (say engine message) (say engine message) := by
  unfold say
  split
  · refine Goes.change fun m _ counted => ?_
    obtain ⟨operations, progress, rfl⟩ := counted
    exact ⟨⟨operations, progress, rfl⟩, fun _ => List.suffix_refl _⟩
  · exact Goes.give ()

theorem checkSize_goes {σ : Type} [Twins σ] (v : Value) (pos : Position) :
    Goes engine (σ := σ) quiet (liftM (checkSize engine v pos)) (liftM (checkSize engine v pos)) :=
  Goes.look (Fuller.refl _)

theorem read_goes {α : Type} {r r' : Store → Except Halt α} (h : ∀ s, Fuller (r s) (r' s)) :
    Goes engine quiet (do r (← get).store : Run α) (do r' (← get).store) := by
  refine Goes.get_bind fun m _ counted => ?_
  obtain ⟨operations, progress, rfl⟩ := counted
  exact Goes.look (h m.store)

theorem scriptFn?_goes (name : Text) (arity : Nat) (exposedOnly : Bool) :
    Goes engine quiet (scriptFn? name arity exposedOnly) (scriptFn? name arity exposedOnly) := by
  refine Goes.get_bind fun m _ counted => ?_
  obtain ⟨operations, progress, rfl⟩ := counted
  dsimp only
  cases m.library.scriptFn? name arity exposedOnly with
  | some f => exact Goes.give _
  | none => exact Goes.give _

theorem walkPath_goes (pos : Position) (seen : List Text) (m : Module) (path : List Text) :
    Goes engine quiet (walkPath pos seen m path) (walkPath pos seen m path) := by
  induction path generalizing seen m with
  | nil => exact Goes.give m
  | cons name rest ih =>
    unfold walkPath
    cases m.module? name with
    | some sub => exact ih _ sub
    | none => exact fail_goes _ pos

theorem findModule_goes (path : List Text) (pos : Position) :
    Goes engine quiet (findModule path pos) (findModule path pos) := by
  cases path with
  | nil => exact fail_goes _ pos
  | cons first rest =>
    refine Goes.get_bind fun m _ counted => ?_
    obtain ⟨operations, progress, rfl⟩ := counted
    dsimp only
    cases (Dict.find? first m.imports).or (m.library.module? first) with
    | some found => exact walkPath_goes pos [first] found rest
    | none => exact fail_goes _ pos

section Readers

variable (hev : engine.Follows ev ev')
include hev

theorem flatten_goes (v : Value) : Goes engine quiet (flatten ev v) (flatten ev' v) :=
  read_goes fun s => s.flatten_fuller hev.fuel v

theorem typeOf_goes (v : Value) : Goes engine quiet (typeOf ev v) (typeOf ev' v) :=
  read_goes fun s => s.typeOf_fuller hev.fuel v

theorem displayText_goes (v : Value) : Goes engine quiet (displayText ev v) (displayText ev' v) :=
  read_goes fun s => v.displayText_fuller s hev.fuel

theorem debugText_goes (v : Value) : Goes engine quiet (debugText ev v) (debugText ev' v) :=
  read_goes fun s => v.debugText_fuller s hev.fuel

theorem typesOf_goes (args : List Value) : Goes engine quiet (typesOf ev args) (typesOf ev' args) :=
  Goes.mapM fun v _ => typeOf_goes hev v

theorem notFound_goes {α : Type} (name : Text) (args : List Value) (pos : Position) :
    Goes engine (α := α) quiet (notFound engine ev name args pos) (notFound engine ev' name args pos) :=
  Goes.bind (typesOf_goes hev args) fun _ => fail_goes _ pos

theorem needsFloat_goes (param : ValueType) (v : Value) :
    Goes engine quiet (needsFloat ev param v) (needsFloat ev' param v) := by
  unfold needsFloat
  split
  · exact Goes.bind (typeOf_goes hev v) fun _ => Goes.give _
  · exact Goes.give false

theorem passCopy_goes (param : ValueType) (v : Value) :
    Goes engine quiet (passCopy ev param v) (passCopy ev' param v) := by
  refine Goes.bind (needsFloat_goes hev param v) fun needs => ?_
  split
  · exact Goes.bind (flatten_goes hev v) fun w => Goes.give _
  · split
    · exact flatten_goes hev v
    · exact Goes.give v

theorem passCopies_goes (params : List ValueType) (args : List Value) :
    Goes engine quiet (passCopies ev params args) (passCopies ev' params args) := by
  induction params generalizing args with
  | nil => exact Goes.give []
  | cons p ps ih =>
    cases args with
    | nil => exact Goes.give []
    | cons v vs =>
      exact Goes.bind (passCopy_goes hev p v) fun w => Goes.bind (ih vs) fun ws => Goes.give (w :: ws)

end Readers

/-- Whatever happens in a frame of its own, the caller's variables keep their marks. -/
theorem inFrame_goes {α : Type} {k k' : Run α} (h : Goes engine False k k')
    (scope : Scope) (library : Module) :
    Goes engine quiet (inFrame scope library k) (inFrame scope library k') := by
  rintro ⟨this, m⟩ ⟨this', m'⟩ ⟨same, counted⟩
  obtain rfl : this' = this := same
  obtain ⟨operations, progress, rfl⟩ := counted
  rw [inFrame_eq, inFrame_eq]
  refine (h (m.enter scope library this') _ ⟨operations, progress, rfl⟩).map fun n n' later => ?_
  obtain ⟨⟨operations, progress, rfl⟩, -⟩ := later
  exact ⟨⟨rfl, operations, progress, rfl⟩, fun _ => List.suffix_refl _⟩

theorem caughtReturn_goes {k k' : Run Value} (h : Goes engine quiet k k') :
    Goes engine quiet (fun m => caughtReturn (k m)) fun m => caughtReturn (k' m) := by
  have stays : ∀ (e : Halt) (m : Machine), engine.Stops e →
      ∃ e' n, caughtReturn (.error e m) = .error e' n ∧ engine.Stops e' := by
    intro e m stops
    cases e with
    | error e => exact ⟨_, _, rfl, stops⟩
    | _ => exact stops.elim
  intro m m' counted
  refine (h m m' counted).handle (fun _ _ _ => .ok) ?_ (fun n => ⟨n, rfl⟩) stays stays
  intro e n n' later
  cases e with
  | returning v => exact .ok later
  | _ => exact .error later

section Calls

variable (hev : engine.Follows ev ev')
include hev

theorem execAll_goes (last : Value) {body : List Stmt}
    (hbody : quiet → ∀ stmt ∈ body, (Code.stmt stmt).Exportless) :
    Goes engine quiet (execAll ev.exec last body) (execAll ev'.exec last body) := by
  induction body generalizing last with
  | nil => exact Goes.give last
  | cons stmt rest ih =>
    refine Goes.bind ((hev.exec stmt).mono fun yes => hbody yes stmt List.mem_cons_self) fun v => ?_
    exact ih v fun yes other mem => hbody yes other (List.mem_cons_of_mem _ mem)

theorem runBlock_goes {body : List Stmt}
    (hbody : quiet → ∀ stmt ∈ body, (Code.stmt stmt).Exportless) :
    Goes engine quiet (runBlock ev body) (runBlock ev' body) :=
  (execAll_goes hev .unit hbody).block

theorem runBody_goes (body : List Stmt) : Goes engine False (runBody ev body) (runBody ev' body) := by
  intro m m' counted
  rw [runBody_eq, runBody_eq]
  have block : Goes engine False (runBlock ev body) (runBlock ev' body) := runBlock_goes hev False.elim
  exact caughtReturn_goes block m m' counted

theorem callScript_goes (target : Target) (args : List Value) (pos : Position) :
    Goes engine quiet (callScript engine ev target args pos) (callScript engine ev' target args pos) := by
  rintro ⟨this, m⟩ ⟨this', m'⟩ ⟨same, counted⟩
  obtain rfl : this' = this := same
  obtain ⟨operations, progress, rfl⟩ := counted
  refine Goes.get_bind (fun s s' twin => ?_) (this', m) _ ⟨rfl, operations, progress, rfl⟩
  obtain ⟨x, n⟩ := s
  obtain ⟨x', n'⟩ := s'
  obtain ⟨-, operations, progress, rfl⟩ := twin
  dsimp only
  split
  · exact Goes.bind (Goes.stop _) fun _ => inFrame_goes (runBody_goes hev target.function.body) _ target.library
  · exact inFrame_goes (runBody_goes hev target.function.body) _ target.library

theorem callBack_goes (pos : Position) (fn : Value) (args : List Value) :
    Goes engine quiet (callBack ev pos fn args) (callBack ev' pos fn args) := by
  cases fn with
  | fn name curry => exact hev.call quiet name _ true pos
  | _ => exact Goes.stop _

theorem applyAll_goes (pos : Position) (fn : Value) (done rest : List Value) :
    Goes engine quiet (applyAll ev pos fn done rest) (applyAll ev' pos fn done rest) := by
  induction rest generalizing done with
  | nil => exact Goes.give ()
  | cons v rest ih =>
    refine Goes.bind (Goes.lift ((callBack_goes hev pos fn [v]).drop none)) fun w => ?_
    exact Goes.bind (Goes.setHeld _) fun _ => ih _

omit hev in
theorem firstAsThis_goes {k k' : Held (Option Value) Value} (h : Goes engine quiet k k') :
    Goes engine quiet (firstAsThis k) (firstAsThis k') :=
  Goes.bind Goes.held fun _ => h.zoom _ _

omit hev in
theorem finish_goes {a a' : Applied} (h : a.Fuller a') : Goes engine (σ := List Value × Machine) quiet
    (do Held.setHeld a.args
        match a.result with
        | .ok v => return v
        | .error e => throw e)
    (do Held.setHeld a'.args
        match a'.result with
        | .ok v => return v
        | .error e => throw e) := by
  rcases h with dry | rfl
  · intro s s' _
    rw [dry]
    exact .spent
  · refine Goes.bind (Goes.setHeld _) fun _ => ?_
    cases a'.result with
    | ok v => exact Goes.give v
    | error e => exact Goes.stop e

theorem applyNative_goes (f : Native) (name : Text) (pos : Position) :
    Goes engine quiet (applyNative engine ev f name pos) (applyNative engine ev' f name pos) := by
  -- What a native function does to its arguments depends on the store alone.
  have applied : ∀ (f : Native) args, Goes engine (σ := List Value × Machine) quiet
      (do let s ← get
          Held.setHeld (ev.native f s.2.store args).args
          match (ev.native f s.2.store args).result with
          | .ok v => return v
          | .error e => throw e)
      (do let s ← get
          Held.setHeld (ev'.native f s.2.store args).args
          match (ev'.native f s.2.store args).result with
          | .ok v => return v
          | .error e => throw e) := by
    intro f args
    refine Goes.get_bind fun s s' twin => ?_
    obtain ⟨-, operations, progress, same⟩ := twin
    rw [same]
    exact finish_goes (hev.native f s.2.store args)
  refine Goes.bind Goes.held fun args => ?_
  dsimp only
  split
  case h_1 tag => exact Goes.bind (Goes.lift (Goes.mapM fun v _ => flatten_goes hev v)) fun vs => Goes.give _
  case h_2 fn v => exact Goes.lift ((callBack_goes hev pos fn [v]).drop none)
  case h_3 first fn => exact Goes.lift ((callBack_goes hev pos fn []).drop none)
  case h_4 first fn v => exact firstAsThis_goes (callBack_goes hev pos fn [v])
  case h_5 items fn => exact Goes.bind ((applyAll_goes hev pos fn [] items).zoom items _) fun _ => Goes.give _
  case h_6 v => exact Goes.bind (Goes.lift (typeOf_goes hev v)) fun t => Goes.give _
  case h_7 f => exact applied (.core f) args
  case h_8 f _ _ _ _ _ => exact applied (.host f) args

omit hev in
theorem stops_located {e : Error} (h : engine.Stops (.error e)) (pos : Position) :
    engine.Stops (.error (e.located pos)) := by
  obtain ⟨cause, place⟩ := e
  unfold Error.located
  dsimp only
  split
  · cases cause <;> exact h
  · exact h

theorem runNative_goes (f : Function) (name : Text) (pos : Position) :
    Goes engine quiet (runNative engine ev f name pos) (runNative engine ev' f name pos) := by
  have stays : ∀ (e : Halt) (s : List Value × Machine), engine.Stops e →
      ∃ e' t, locatedAt (α := Value) pos (.error e s) = .error e' t ∧ engine.Stops e' := by
    intro e s stops
    cases e with
    | error e => exact ⟨_, _, rfl, stops_located stops pos⟩
    | _ => exact stops.elim
  intro s s' twin
  cases body : f.body with
  | script g =>
    rw [runNative_script body, runNative_script body]
    exact .error ⟨twin, fun _ => List.suffix_refl _⟩
  | native n =>
    rw [runNative_native body, runNative_native body]
    refine (applyNative_goes hev n name pos s s' twin).handle (fun _ _ _ => .ok) ?_
      (fun t => ⟨t, rfl⟩) stays stays
    exact fun e t t' later => by cases e <;> exact .error later

theorem runChecked_goes (f : Function) (name : Text) (method : Bool) (pos : Position) :
    Goes engine quiet (runChecked engine ev f name method pos)
      (runChecked engine ev' f name method pos) := by
  refine Goes.bind (runNative_goes hev f name pos) fun result => ?_
  refine Goes.bind (checkSize_goes result pos) fun _ => ?_
  refine Goes.bind Goes.held fun args => ?_
  cases args with
  | nil => exact Goes.give result
  | cons first rest =>
    dsimp only
    split
    · exact Goes.bind (checkSize_goes first pos) fun _ => Goes.give result
    · exact Goes.give result

theorem callNative_goes (f : Overload) (name : Text) (method : Bool) (pos : Position) :
    Goes engine quiet (callNative engine ev f name method pos)
      (callNative engine ev' f name method pos) := by
  refine Goes.bind Goes.held fun args => ?_
  cases args with
  | nil => exact runChecked_goes hev f.2 name method pos
  | cons first rest =>
    have call : Goes engine (σ := Value × Machine) quiet
        (do let copies ← Held.lift (passCopies ev f.1.params.tail rest)
            let v ← Held.held
            Held.zoom (v :: copies) (fun args v => args.headD v)
              (runChecked engine ev f.2 name method pos))
        (do let copies ← Held.lift (passCopies ev' f.1.params.tail rest)
            let v ← Held.held
            Held.zoom (v :: copies) (fun args v => args.headD v)
              (runChecked engine ev' f.2 name method pos)) := by
      refine Goes.bind (Goes.lift (passCopies_goes hev _ rest)) fun copies => ?_
      exact Goes.bind Goes.held fun v => (runChecked_goes hev f.2 name method pos).zoom _ _
    have inPlace := (call.behind [] pos).zoom first fun v (args : List Value) => v :: args.tail
    refine Goes.bind (Goes.lift (needsFloat_goes hev _ first)) fun needs => ?_
    split
    · refine Goes.bind (Goes.lift (flatten_goes hev first)) fun v => ?_
      exact Goes.lift (call.drop (toFloat v))
    · exact inPlace

theorem tryNative_goes (name : Text) (method : Bool) (pos : Position) :
    Goes engine quiet (tryNative engine ev name method pos) (tryNative engine ev' name method pos) := by
  refine Goes.bind Goes.held fun args => Goes.bind (Goes.lift (typesOf_goes hev args)) fun types => ?_
  cases engine.native? name types method with
  | none => exact Goes.give none
  | some f => exact Goes.bind (callNative_goes hev f name method pos) fun v => Goes.give (some v)

theorem tryMethod_goes (name : Text) (rest : List Value) (pos : Position) :
    Goes engine quiet (tryMethod engine ev name rest pos) (tryMethod engine ev' name rest pos) :=
  Goes.bind Goes.held fun _ => (tryNative_goes hev name true pos).zoom _ _

theorem callByValue_goes (name : Text) (args : List Value) (pos : Position) :
    Goes engine quiet (callByValue engine ev name args pos) (callByValue engine ev' name args pos) := by
  refine Goes.bind ((tryNative_goes hev name false pos).drop args) fun found => ?_
  cases found with
  | some v => exact Goes.give v
  | none =>
    dsimp only
    split
    · exact Goes.give _
    · split
      · exact Goes.give _
      · exact notFound_goes hev name args pos

theorem callMethod_goes (name : Text) (args : List Value) (pos : Position) :
    Goes engine quiet (callMethod engine ev name args pos) (callMethod engine ev' name args pos) := by
  refine Goes.bind (Goes.lift (scriptFn?_goes name args.length false)) fun found => ?_
  cases found with
  | some target => exact Goes.bind Goes.held fun v => (callScript_goes hev target args pos).zoom _ _
  | none =>
    refine Goes.bind (tryMethod_goes hev name args pos) fun found => ?_
    cases found with
    | some v => exact Goes.give v
    | none => exact Goes.bind Goes.held fun v => Goes.lift (notFound_goes hev name _ pos)

theorem orNotFound_goes (name : Text) (args : List Value) (pos : Position) (found : Option Value) :
    Goes engine (σ := Option Value × Machine) quiet
      (match found with
        | some v => pure v
        | none => do
          let this ← Held.held
          Held.lift (notFound engine ev name (this.toList ++ args) pos))
      (match found with
        | some v => pure v
        | none => do
          let this ← Held.held
          Held.lift (notFound engine ev' name (this.toList ++ args) pos)) := by
  cases found with
  | some v => exact Goes.give v
  | none => exact Goes.bind Goes.held fun this => Goes.lift (notFound_goes hev name _ pos)

theorem callNamed_goes (name : Text) (args : List Value) (exposedOnly : Bool) (pos : Position) :
    Goes engine quiet (callNamed engine ev name args exposedOnly pos)
      (callNamed engine ev' name args exposedOnly pos) := by
  refine Goes.bind (Goes.lift (scriptFn?_goes name args.length exposedOnly)) fun found => ?_
  cases found with
  | some target => exact callScript_goes hev target args pos
  | none =>
    refine Goes.bind Goes.held fun this => ?_
    cases this with
    | some v =>
      refine Goes.bind ((tryMethod_goes hev name args pos).zoom v _) ?_
      exact orNotFound_goes hev name args pos
    | none =>
      refine Goes.bind (Goes.lift ((tryNative_goes hev name false pos).drop args)) ?_
      exact orNotFound_goes hev name args pos

end Calls

end Eval

end Scripting
