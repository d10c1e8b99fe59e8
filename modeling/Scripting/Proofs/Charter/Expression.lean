import Scripting.Eval
import Scripting.Proofs.Charter.Place

/-
Expressions under a charter, one form at a time.
-/
namespace Scripting

namespace Eval

/-- A call whose first argument is a variable tries it in place first. -/
theorem callOnVariable_eq (engine : Engine) (ev : Evaluator) (name : Text) (varPos : Position)
    (variableName : Text) (rest : List Expr) (pos : Position) :
    callOnVariable engine ev name varPos variableName rest pos = (do
      let rest ← evalArgs ev rest
      match ← tryOnVariable engine ev name varPos variableName rest pos with
      | some v => return v
      | none =>
        let v ← readVariable ev varPos variableName []
        callByValue engine ev name (v :: rest) pos) := by
  refine congrArg (evalArgs ev rest >>= ·) (funext fun values => funext fun m => ?_)
  unfold tryOnVariable
  simp only [bind_assoc]
  refine congrFun (congrArg (get >>= ·) (funext fun n => ?_)) m
  cases n.scope.find? variableName with
  | none => rfl
  | some entry =>
    dsimp only
    cases entry.isConst with
    | true => rfl
    | false => rfl

end Eval

namespace Charter

variable {engine : Engine} {C : Charter engine} {x : Extent C.Way} {w : C.Way} {l : C.Level}

open Eval

theorem entry_does {entries : List (Text × Value)} (h : C.plain l (.map entries)) (key : Text) :
    C.Does .call l C.plain fun i => (match Dict.find? key entries with
      | some v => Eval.flatten (C.ev i) v
      | none => return .unit) := by
  cases found : Dict.find? key entries with
  | some v => exact C.flatten (C.entry h found)
  | none => exact unit_does

/-- What a getter gives is the result. If there is none, the container is given back. -/
theorem getter_does (name : Text) {index : List Value} (hindex : C.Plain l index) {container : Value}
    (hcontainer : C.plain l container) (pos : Position) {k : C.Side → Option Value × Value → Run Value}
    (given : ∀ l' u v, C.plain l' u → C.Does .call l' C.plain fun i => k i (some u, v))
    (missing : ∀ l' v, C.plain l' v → C.Does .call l' C.plain fun i => k i (none, v)) :
    C.Does .call l C.plain fun i => (do
      k i (← Held.drop container do
        let found ← Eval.tryMethod (C.side i) (C.ev i) name index pos
        return (found, ← Held.held)) : Run Value) := by
  have read : C.Does .call l (fun l' (p : Option Value × Value) => C.Object l' p.1 ∧ C.plain l' p.2)
      fun i => Held.drop container (do
        let found ← Eval.tryMethod (C.side i) (C.ev i) name index pos
        return (found, ← Held.held)) := by
    refine C.drop ?_ hcontainer
    refine C.bindHeld (C.tryMethod name pos hindex) fun l₁ found _ hfound => ?_
    refine C.bindHeld C.held fun l₂ v le hv => C.giveHeld fun l₃ le' => ⟨?_, C.grow le' hv⟩
    exact fun u eq => C.grow (le_trans le le') (hfound u eq)
  refine C.bind read ?_
  rintro l₁ ⟨found, v⟩ _ ⟨hfound, hv⟩
  cases found with
  | some u => exact given l₁ u v (hfound u rfl)
  | none => exact missing l₁ v hv

theorem readIndex_does {container index : Value} (hcontainer : C.plain l container)
    (hindex : C.plain l index) (pos : Position) :
    C.Does .call l C.plain fun i => readIndex (C.side i) (C.ev i) container index pos := by
  cases container with
  | array items =>
    refine C.bind (arrayIndex_does items.length hindex pos) fun l₁ i le _ => ?_
    exact C.flatten (C.grow le (plain_item hcontainer i))
  | map entries =>
    refine C.bind (mapKey_does hindex pos) fun l₁ key le _ => ?_
    exact entry_does (C.grow le hcontainer) key
  | string t =>
    refine C.bind (locateChar_does t hindex pos) ?_
    rintro l₁ ⟨front, c, tail⟩ _ small
    exact C.give fun _ _ => plain_char small
  | _ =>
    refine getter_does _ (plain_cons hindex plain_nil) hcontainer pos (fun l₁ u v hu => ?_) ?_
    · exact C.give fun _ le => C.grow le hu
    · refine fun l₁ v hv => C.bind (C.typeOf hv) fun _ t _ _ => ?_
      exact C.fail (.indexing (.unsupported (engine.typeName t))) pos

theorem readProperty_does {container : Value} (hcontainer : C.plain l container) (name : Text)
    (pos : Position) :
    C.Does .call l C.plain fun i => readProperty (C.side i) (C.ev i) container name pos := by
  cases container with
  | map entries => exact entry_does hcontainer name
  | _ =>
    refine getter_does _ plain_nil hcontainer pos (fun l₁ u v hu => ?_) fun l₁ v hv => ?_
    · exact C.give fun _ le => C.grow le hu
    · exact notFound_does _ (plain_cons hv plain_nil) pos

theorem arrayHolds_does {needle : Value} (hneedle : C.plain l needle) (pos : Position)
    {items : List Value} (hitems : C.Plain l items) :
    C.Does .call l (fun _ _ => True) fun i => arrayHolds (C.side i) (C.ev i) needle pos items := by
  induction items generalizing l with
  | nil => exact C.give fun _ _ => trivial
  | cons v rest ih =>
    have sides : C.Plain l [needle, v] :=
      plain_cons hneedle (plain_cons (hitems v List.mem_cons_self) plain_nil)
    refine C.bind (C.callByValue (Text.lit "==") pos sides) fun l₁ same le _ => ?_
    have later := ih (C.grow le hneedle) (plain_grow le (plain_tail hitems))
    cases same with
    | bool b =>
      cases b with
      | true => exact C.give fun _ _ => trivial
      | false => exact later
    | _ => exact later

theorem announce_does (service : Service) {v : Value} (hv : C.plain l v) (pos : Position) :
    C.Does .call l C.plain fun i => announce (C.side i) (C.ev i) service v pos := by
  have last : ∀ l' text, C.Does .call l' C.plain fun i =>
      (do Eval.say (C.side i) (if service = .print then .print text else .debug text pos)
          return .unit : Run Value) :=
    fun l' text => C.bind (C.say _) fun _ _ _ _ => unit_does
  refine C.bind (C.tryNative service.text pos (plain_cons hv plain_nil)) fun l₁ found le hfound => ?_
  have shown : ∀ u, C.plain l₁ u → C.Does .call l₁ C.plain fun i =>
      (do let text ← Eval.displayText (C.ev i) u
          Eval.say (C.side i) (if service = .print then .print text else .debug text pos)
          return .unit : Run Value) :=
    fun u hu => C.bind (C.displayText hu) fun l₂ text _ _ => last l₂ text
  cases found with
  | some u =>
    have other := shown u (hfound u rfl)
    cases u with
    | string t => exact last l₁ t
    | _ => exact other
  | none =>
    cases service with
    | print => exact shown v (C.grow le hv)
    | _ => exact C.bind (C.debugText (C.grow le hv)) fun l₂ text _ _ => last l₂ text

theorem evalArgs_does {args : List Expr} (admits : ∀ e ∈ args, C.admits w (.expr e)) :
    C.Does (.expr w) l C.Plain fun i => evalArgs (C.ev i) args :=
  mapM_does lasting_plain fun e he => C.eval (admits e he)

theorem evalPlain_does {e : Expr} (admits : C.admits w (.expr e)) :
    C.Does (.expr w) l C.plain fun i => (do Eval.plain (C.ev i) (← (C.ev i).eval e) : Run Value) :=
  C.bind (C.eval admits) fun _ _ _ hv => plain_does hv

theorem evalMember_does {left right : Expr} (hleft : C.admits w (.expr left))
    (hright : C.admits w (.expr right)) (pos : Position) :
    C.Does (.expr w) l C.plain fun i => evalMember (C.side i) (C.ev i) left right pos := by
  refine C.bind (C.eval hleft) fun l₁ needle _ hneedle => ?_
  refine C.bind (C.eval hright) fun l₂ haystack le hhaystack => ?_
  have refused : ∀ expected p, C.Does (.expr w) l₂ C.plain fun i =>
      mismatch (C.side i) (C.ev i) expected needle p :=
    fun expected p => mismatch_does expected (C.grow le hneedle) p
  have stray : C.Does (.expr w) l₂ C.plain fun i =>
      mismatch (C.side i) (C.ev i) "array, string or map" haystack right.pos :=
    mismatch_does _ hhaystack right.pos
  cases haystack with
  | array items =>
    refine C.bind (C.loose (arrayHolds_does (C.grow le hneedle) pos (C.items hhaystack))) ?_
    exact fun _ _ _ _ => bool_does
  | string t =>
    cases needle with
    | string sub => exact bool_does
    | char c => exact bool_does
    | _ => exact refused _ left.pos
  | map entries =>
    cases needle with
    | string key => exact bool_does
    | char c => exact bool_does
    | _ => exact refused _ left.pos
  | _ => exact stray

theorem evalEntries_does {pos : Position} {all : List (Text × Expr)}
    (literal : C.admits w (.expr (.map pos all))) {found : List (Text × Value)}
    (hfound : C.collected l found) {entries : List (Text × Expr)} (part : ∀ e ∈ entries, e ∈ all) :
    C.Does (.expr w) l C.collected fun i => evalEntries (C.ev i) found entries := by
  induction entries generalizing found l with
  | nil => exact C.give fun _ le => C.collected_grow le hfound
  | cons entry rest ih =>
    have here : entry ∈ all := part entry List.mem_cons_self
    obtain ⟨key, e⟩ := entry
    have admits : C.admits w (.expr e) := C.parts literal _ (List.mem_map_of_mem here)
    refine C.bind (C.eval admits) fun l₁ v le hv => ?_
    refine C.bind (plain_does hv) fun l₂ u le' hu => ?_
    have old := C.collected_grow (le_trans le le') hfound
    exact ih (C.collect literal (key, e) here old hu) fun f hf => part f (List.mem_cons_of_mem _ hf)

theorem onValues_does (service : Service) (args : List Expr) (values : List Value)
    (pos : Position) : C.Plain l values → C.Does .call l C.plain fun i =>
      (match service, args, values with
        | .fnPointer, [arg], [v] =>
          match v with
          | .string name => FnPointer.make name pos
          | v => mismatch (C.side i) (C.ev i) "string" v arg.pos
        | .print, _, [v] => announce (C.side i) (C.ev i) .print v pos
        | .debug, _, [v] => announce (C.side i) (C.ev i) .debug v pos
        | .typeOf, _, [v] => return .string (engine.typeName (← Eval.typeOf (C.ev i) v))
        | .call, _, .fn name curry :: rest => Eval.callPointer (C.ev i) name (curry ++ rest) pos
        | .curry, _, .fn name curry :: rest => return .fn name (curry ++ rest)
        | _, _, _ => notFound (C.side i) (C.ev i) service.text values pos : Run Value) := by
  intro hvalues
  have missing : ∀ service : Service, C.Does .call l C.plain fun i =>
      notFound (C.side i) (C.ev i) service.text values pos :=
    fun service => notFound_does service.text hvalues pos
  cases service with
  | fnPointer =>
    rcases args with _ | ⟨arg, _ | ⟨second, others⟩⟩
    · exact missing _
    · rcases values with _ | ⟨v, _ | ⟨u, rest⟩⟩
      · exact missing _
      · have refused : C.Does .call l C.plain fun i =>
            mismatch (C.side i) (C.ev i) "string" v arg.pos :=
          mismatch_does "string" (hvalues v List.mem_cons_self) arg.pos
        cases v with
        | string name => exact C.make name pos
        | _ => exact refused
      · exact missing _
    · exact missing _
  | print =>
    rcases values with _ | ⟨v, _ | ⟨u, rest⟩⟩
    case cons.nil => exact announce_does .print (hvalues v List.mem_cons_self) pos
    all_goals exact missing _
  | debug =>
    rcases values with _ | ⟨v, _ | ⟨u, rest⟩⟩
    case cons.nil => exact announce_does .debug (hvalues v List.mem_cons_self) pos
    all_goals exact missing _
  | typeOf =>
    rcases values with _ | ⟨v, _ | ⟨u, rest⟩⟩
    case cons.nil =>
      refine C.bind (C.typeOf (hvalues v List.mem_cons_self)) fun _ t _ _ => ?_
      exact C.give fun _ _ => C.typeName t
    all_goals exact missing _
  | call =>
    rcases values with _ | ⟨v, rest⟩
    · exact missing _
    · cases v with
      | fn name curry => exact C.callPointer pos (hvalues _ List.mem_cons_self) (plain_tail hvalues)
      | _ => exact missing _
  | curry =>
    rcases values with _ | ⟨v, rest⟩
    · exact missing _
    · cases v with
      | fn name curry =>
        have curried := C.curry (hvalues _ List.mem_cons_self) (plain_tail hvalues)
        exact C.give fun _ le => C.grow le curried
      | _ => exact missing _
  | _ => exact missing _

theorem isShared_does (e : Expr) : C.admits w (.expr e) →
    C.Does (.expr w) l C.plain fun i => (match e with
      | .var varPos name [] => Eval.isSharedVariable name varPos
      | e => do
        let _ ← (C.ev i).eval e
        return .bool false : Run Value) := by
  intro admits
  have evaluated : C.Does (.expr w) l C.plain fun i =>
      ((C.ev i).eval e >>= fun _ => pure (.bool false)) :=
    C.bind (C.eval admits) fun _ _ _ _ => bool_does
  cases e with
  | var varPos name path =>
    cases path with
    | nil => exact C.loose (C.isSharedVariable name varPos)
    | cons first rest => exact evaluated
  | _ => exact evaluated

theorem callService_does (service : Service) {args : List Expr}
    (admits : ∀ e ∈ args, C.admits w (.expr e)) (pos : Position) :
    C.Does (.expr w) l C.plain fun i => callService (C.side i) (C.ev i) service args pos := by
  have called := C.bind (l := l) (evalArgs_does admits) fun _ values _ hvalues =>
    C.loose (onValues_does service args values pos hvalues)
  cases service with
  | isShared =>
    rcases args with _ | ⟨arg, _ | ⟨second, others⟩⟩
    case cons.nil => exact isShared_does arg (admits arg List.mem_cons_self)
    all_goals exact called
  | _ => exact called

theorem callQualified_does (name : Text) (path : List Text) {args : List Expr}
    (admits : ∀ e ∈ args, C.admits w (.expr e)) (pos : Position) :
    C.Does (.expr w) l C.plain fun i => callQualified (C.side i) (C.ev i) name path args pos := by
  refine C.bind (C.loose (C.findModule path pos)) fun l₁ found _ reach => ?_
  refine C.bind (evalArgs_does admits) fun l₂ values le hvalues => ?_
  have reach := C.reachable_grow le reach
  refine C.loose ?_
  cases script : found.scriptFn? name values.length true with
  | some f => exact C.callScript pos (C.exposed reach script) hvalues
  | none =>
    refine C.bind (typesOf_does hvalues) fun l₃ types le _ => ?_
    dsimp only
    cases chosen : ((found.withTypes? name types).filter fun f => !f.2.isHidden).or
        ((found.promoted? name types false true).map (·.1)) with
    | none => exact C.fail (.functionNotFound (joinPath path (engine.signatureText name types))) pos
    | some f =>
      cases script : f.2.isScript with
      | true =>
        simp only [script, if_true]
        exact C.fail (.functionNotFound (joinPath path (engine.signatureText name types))) pos
      | false =>
        simp only [script, Bool.false_eq_true, if_false]
        have own : f ∈ found.functions := by
          rcases Option.or_eq_some_iff.mp chosen with exact | ⟨-, promoted⟩
          · exact Module.withTypes?_mem (Option.mem_filter_iff.mp exact).1
          · obtain ⟨⟨g, cost⟩, found, rfl⟩ := Option.map_eq_some_iff.mp promoted
            exact Module.promoted?_mem found
        exact C.callNative name pos (C.reachable_grow le reach) own (plain_grow le hvalues)

theorem callOnVariable_does (name : Text) (varPos : Position) (variableName : Text)
    {rest : List Expr} (admits : ∀ e ∈ rest, C.admits w (.expr e)) (pos : Position) :
    C.Does (.expr w) l C.plain fun i =>
      callOnVariable (C.side i) (C.ev i) name varPos variableName rest pos := by
  simp only [callOnVariable_eq]
  refine C.bind (evalArgs_does admits) fun l₁ values _ hvalues => ?_
  refine C.bind (C.tryOnVariable name varPos variableName pos hvalues) fun l₂ found le hfound => ?_
  cases found with
  | some v => exact C.give fun _ le => C.grow le (hfound v rfl)
  | none =>
    refine C.loose (C.bind (C.readVariable varPos variableName []) fun l₃ v le' hv => ?_)
    exact C.callByValue name pos (plain_cons hv (plain_grow (le_trans le le') hvalues))

theorem callPlain_does (name : Text) {args : List Expr}
    (admits : ∀ e ∈ args, C.admits w (.expr e)) (isOperator : Bool) (pos : Position) :
    C.Does (.expr w) l C.plain fun i => callPlain (C.side i) (C.ev i) name args isOperator pos := by
  refine C.bind (C.loose (C.scriptFn? name args.length false)) fun l₁ found _ hfound => ?_
  cases found with
  | some target =>
    refine C.bind (evalArgs_does admits) fun l₂ values le hvalues => ?_
    exact C.loose (C.callScript pos (C.callable_grow le (hfound target rfl)) hvalues)
  | none =>
    have byValue : C.Does (.expr w) l₁ C.plain fun i =>
        (evalArgs (C.ev i) args >>= fun values =>
          Eval.callByValue (C.side i) (C.ev i) name values pos) :=
      C.bind (evalArgs_does admits) fun _ _ _ hvalues => C.loose (C.callByValue name pos hvalues)
    cases isOperator with
    | true => exact byValue
    | false =>
      rcases args with _ | ⟨first, rest⟩
      · exact byValue
      · have later : ∀ e ∈ rest, C.admits w (.expr e) :=
          fun e he => admits e (List.mem_cons_of_mem _ he)
        cases first with
        | var varPos variableName path =>
          cases path with
          | nil => exact callOnVariable_does name varPos variableName later pos
          | cons _ _ => exact byValue
        | _ => exact byValue

theorem evalCall_does (name : Text) (path : List Text) {args : List Expr}
    (admits : ∀ e ∈ args, C.admits w (.expr e)) (isOperator : Bool) (pos : Position) :
    C.Does (.expr w) l C.plain fun i => evalCall (C.side i) (C.ev i) name path args isOperator pos := by
  have called : ∀ l', C.Does (.expr w) l' C.plain fun i =>
      callPlain (C.side i) (C.ev i) name args isOperator pos :=
    fun _ => callPlain_does name admits isOperator pos
  unfold evalCall
  cases path with
  | cons first rest => exact callQualified_does name _ admits pos
  | nil =>
    dsimp only [List.isEmpty_nil, Bool.not_true, Bool.false_eq_true, if_false]
    cases (if isOperator then none else Service.ofText? name : Option Service) with
    | none => exact called l
    | some service =>
      refine C.bind (C.loose (C.scriptFn? name args.length false)) fun l₁ found _ _ => ?_
      cases overridden : (service.isOverridable && found.isSome) with
      | true =>
        simp only [if_true]
        exact called l₁
      | false =>
        simp only [Bool.false_eq_true, if_false]
        exact callService_does service admits pos

/-- What is found behind an object that is called: a pointer, or the value of the call made on it. -/
def Settled (C : Charter engine) (l : C.Level) : (Text × List Value) ⊕ Value → Prop
  | .inl (name, curry) => C.plain l (.fn name curry)
  | .inr v => C.plain l v

theorem lasting_settled : C.Lasting C.Settled := by
  rintro l l' (⟨name, curry⟩ | v) le h
  · exact C.grow le h
  · exact C.grow le h

theorem callOn_works {v : Value} (hv : C.plain l v) (args : List Value) (pos : Position) :
    C.Plain l args → C.Works l C.Settled fun i => (match args with
      | .fn name curry :: rest => do
        return .inr (← Held.zoom (some v) (fun this v => this.getD v)
          ((C.ev i).callNamed name (curry ++ rest) false pos))
      | args => Held.lift (notFound (C.side i) (C.ev i) Service.call.text (v :: args) pos) :
      Held Value ((Text × List Value) ⊕ Value)) := by
  intro hargs
  have missing : C.Works l C.Settled fun i =>
      Held.lift (notFound (C.side i) (C.ev i) Service.call.text (v :: args) pos) :=
    C.lift (notFound_does _ (plain_cons hv hargs) pos)
  rcases args with _ | ⟨first, rest⟩
  · exact missing
  · cases first with
    | fn name curry =>
      refine C.bindHeld (C.callOn pos hv (hargs _ List.mem_cons_self) (plain_tail hargs)) ?_
      exact fun l₁ u _ hu => C.giveHeld fun _ le => C.grow le hu
    | _ => exact missing

theorem callThrough_does {object : Expr} (hobject : C.admits w (.expr object)) {args : List Value}
    (hargs : C.Plain l args) (pos : Position) :
    C.Does (.expr w) l C.plain fun i => callThrough (C.side i) (C.ev i) object args pos := by
  refine C.bind (access_does lasting_settled object hobject (Or.inr (Or.inl rfl)) ?_) ?_
  · refine C.bindHeld C.held fun l₁ v le hv => ?_
    have called := callOn_works hv args pos (plain_grow le hargs)
    cases v with
    | fn name curry => exact C.giveHeld fun _ le => C.grow le hv
    | _ => exact called
  · rintro l₁ (⟨name, curry⟩ | v) le h
    · exact C.loose (C.callPointer pos h (plain_grow le hargs))
    · exact C.give fun _ le => C.grow le h

theorem evalMethod_does {object : Expr} (hobject : C.admits w (.expr object)) (name : Text)
    {args : List Expr} (admits : ∀ e ∈ args, C.admits w (.expr e)) (pos : Position) :
    C.Does (.expr w) l C.plain fun i => evalMethod (C.side i) (C.ev i) object name args pos := by
  have method : C.Does (.expr w) l C.plain fun i => (evalArgs (C.ev i) args >>= fun values =>
      access (C.side i) (C.ev i) object false
        (Eval.callMethod (C.side i) (C.ev i) name values pos)) := by
    refine C.bind (evalArgs_does admits) fun l₁ values _ hvalues => ?_
    exact access_does lasting_plain object hobject (Or.inr (Or.inl rfl)) (C.callMethod name pos hvalues)
  unfold evalMethod
  cases Service.ofText? name with
  | none => exact method
  | some service =>
    cases service with
    | isShared =>
      cases args with
      | nil => exact isShared_does object hobject
      | cons first rest => exact method
    | typeOf =>
      cases args with
      | nil =>
        refine C.bind (C.eval hobject) fun l₁ v _ hv => ?_
        refine C.bind (C.loose (C.typeOf hv)) fun l₂ t _ _ => ?_
        exact C.give fun _ _ => C.typeName t
      | cons first rest => exact method
    | curry =>
      refine C.bind (evalArgs_does admits) fun l₁ values _ hvalues => ?_
      refine C.bind (C.eval hobject) fun l₂ v le hv => ?_
      have hvalues := plain_grow le hvalues
      have missing : C.Does (.expr w) l₂ C.plain fun i =>
          notFound (C.side i) (C.ev i) name (v :: values) pos :=
        notFound_does name (plain_cons hv hvalues) pos
      cases v with
      | fn function curry => exact C.give fun _ le => C.grow le (C.curry hv hvalues)
      | _ => exact missing
    | call =>
      refine C.bind (evalArgs_does admits) fun l₁ values _ hvalues => ?_
      exact callThrough_does hobject hvalues pos
    | _ => exact method

/-- Whatever is true of counting an operation before something that the charter says gives a plain
value is true of an expression. -/
theorem evalExpr_after {e : Expr} (admits : C.admits w (.expr e)) {P : (C.Side → Run Value) → Prop}
    (counted : ∀ k, C.Does (.expr w) l C.plain k → P fun i => tick (C.side i) e.pos >>= fun _ => k i) :
    P fun i => evalExpr (C.side i) (C.ev i) e := by
  have eval : ∀ {l'} p, .expr p ∈ (Code.expr e).parts →
      C.Does (.expr w) l' C.plain fun i => (C.ev i).eval p :=
    fun p hp => C.eval (C.parts admits _ hp)
  cases e with
  | int pos n => exact counted _ (C.give fun _ _ => C.atom rfl fun _ never => by cases never)
  | float pos f => exact counted _ (C.give fun _ _ => C.atom rfl fun _ never => by cases never)
  | string pos t => exact counted _ (C.give fun _ _ => C.stringLiteral admits)
  | char pos c => exact counted _ (C.give fun _ _ => C.charLiteral admits)
  | bool pos b => exact counted _ bool_does
  | unit pos => exact counted _ unit_does
  | var pos name path => exact counted _ (C.loose (C.readVariable pos name path))
  | this pos => exact counted _ (C.loose (C.readThis pos))
  | call pos name path args isOperator =>
    refine counted _ (evalCall_does name path (fun e he => ?_) isOperator pos)
    exact C.parts admits _ (List.mem_map_of_mem he)
  | method pos object name args =>
    refine counted _ (evalMethod_does (C.parts admits _ List.mem_cons_self) name (fun e he => ?_) pos)
    exact C.parts admits _ (List.mem_cons_of_mem _ (List.mem_map_of_mem he))
  | property pos object name =>
    refine counted _ (C.bind (eval object (by simp [Code.parts])) fun l₁ v _ hv => ?_)
    exact C.loose (readProperty_does hv name pos)
  | index pos object index =>
    refine counted _ (C.bind (eval object (by simp [Code.parts])) fun l₁ container _ hcontainer => ?_)
    refine C.bind (eval index (by simp [Code.parts])) fun l₂ i le hi => ?_
    exact C.loose (readIndex_does (C.grow le hcontainer) hi pos)
  | logical pos isAnd left right =>
    refine counted _ (C.bind (eval left (by simp [Code.parts])) fun l₁ v _ hv => ?_)
    refine C.bind (requireBool_does hv left.pos) fun l₂ decided _ _ => ?_
    by_cases settled : (decided != isAnd) = true
    · simp only [if_pos settled]
      exact bool_does
    · simp only [if_neg settled]
      refine C.bind (eval right (by simp [Code.parts])) fun l₃ u _ hu => ?_
      exact C.bind (requireBool_does hu right.pos) fun _ _ _ _ => bool_does
  | member pos left right =>
    refine counted _ (evalMember_does ?_ ?_ pos)
    · exact C.parts admits _ (by simp [Code.parts])
    · exact C.parts admits _ (by simp [Code.parts])
  | block pos body =>
    exact counted _ (C.runBlock fun s hs => C.parts admits _ (List.mem_map_of_mem hs))
  | branch pos condition yes no =>
    refine counted _ (C.bind (eval condition (by simp [Code.parts])) fun l₁ v _ hv => ?_)
    refine C.bind (requireBool_does hv condition.pos) fun l₂ b _ _ => ?_
    cases b with
    | true => exact eval yes (by simp [Code.parts])
    | false =>
      cases no with
      | some no => exact eval no (by simp [Code.parts])
      | none => exact unit_does
  | array pos items =>
    have values : C.Does (.expr w) l C.Plain fun i =>
        (items.mapM fun item => do Eval.plain (C.ev i) (← (C.ev i).eval item) : Run (List Value)) :=
      mapM_does lasting_plain fun item hitem =>
        evalPlain_does (C.parts admits _ (List.mem_map_of_mem hitem))
    refine counted _ (C.bind values fun l₁ vs _ hvs => ?_)
    refine C.bind (C.loose (C.checkArray pos hvs)) fun l₂ _ _ checked => ?_
    exact C.give fun _ le => C.grow le checked
  | map pos entries =>
    refine counted _ (C.bind (evalEntries_does admits C.nothing fun _ h => h) fun l₁ found _ hfound => ?_)
    refine C.bind (C.loose (C.checkMap pos hfound)) fun l₂ _ _ checked => ?_
    exact C.give fun _ le => C.grow le checked
  | closure pos function captured => exact counted _ (C.closure admits)

end Charter

end Scripting
