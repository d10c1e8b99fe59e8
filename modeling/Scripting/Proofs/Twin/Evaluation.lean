import Scripting.Proofs.Twin.Parts

/-
Twin runs of imports and of evaluation as a whole. More fuel changes nothing about a run
that has enough.
-/
namespace Scripting.Eval

variable {engine : Engine} {quiet : Prop} {ev ev' : Evaluator}

section

variable (hev : engine.Follows ev ev')
include hev

theorem runTop_goes {statements : List Stmt}
    (hstatements : quiet → ∀ stmt ∈ statements, (Code.stmt stmt).Exportless) :
    Goes engine quiet (runTop ev statements) (runTop ev' statements) := by
  intro m m' counted
  rw [runTop_eq, runTop_eq]
  exact caughtReturn_goes (execAll_goes hev .unit hstatements) m m' counted

theorem exports_goes (entries : List Entry) (found : Dict Text Value) :
    Goes engine quiet (exports ev entries found) (exports ev' entries found) := by
  induction entries generalizing found with
  | nil => exact Goes.give found
  | cons e rest ih =>
    unfold exports
    cases e.exported with
    | none => exact ih found
    | some name => exact Goes.bind (flatten_goes hev e.value) fun v => ih _

omit hev in
theorem isolated_goes {α : Type} {k k' : Run α} (h : Goes engine False k k')
    (library : Module) : Goes engine quiet (isolated library k) (isolated library k') := by
  rintro m _ ⟨operations, progress, rfl⟩
  rw [isolated_eq, isolated_eq]
  refine (h (freshMachine m.world library) _ ⟨0, progress, rfl⟩).map fun n n' later => ?_
  obtain ⟨⟨_, progress, rfl⟩, -⟩ := later
  exact ⟨⟨operations, progress, rfl⟩, fun _ => List.suffix_refl _⟩

theorem runModule_goes (script : Script) :
    Goes engine quiet (runModule ev script) (runModule ev' script) := by
  refine isolated_goes ?_ script.library
  refine Goes.bind (runTop_goes hev False.elim) fun _ => Goes.get_bind fun m _ counted => ?_
  obtain ⟨operations, progress, rfl⟩ := counted
  exact Goes.bind (exports_goes hev _ _) fun values => Goes.give _

omit hev in
theorem compile_goes (asExpression : Bool) (pieces : List Text) :
    Goes engine quiet (compile engine asExpression pieces) (compile engine asExpression pieces) := by
  rintro m _ ⟨operations, progress, rfl⟩
  unfold compile
  dsimp only
  generalize engine.compile asExpression pieces m.world.nextClosure = result
  obtain ⟨result, next⟩ := result
  have later : Twins.Later quiet m { m with world := { m.world with nextClosure := next } } _ :=
    ⟨⟨operations, progress, rfl⟩, fun _ => List.suffix_refl _⟩
  cases result with
  | ok script => exact .ok later
  | error stop =>
    cases stop with
    | fault e => exact .error later
    | exhausted => exact .error later

omit hev in
theorem whileLoading_goes {α : Type} {k k' : Run α} (h : Goes engine quiet k k') (shelf : Shelf) :
    Goes engine quiet (whileLoading shelf k) (whileLoading shelf k') := by
  rintro m _ ⟨operations, progress, rfl⟩
  rw [whileLoading_eq, whileLoading_eq]
  refine (h { m with world := { m.world with loading := shelf :: m.world.loading } } _
    ⟨operations, progress, rfl⟩).map fun n n' later => ?_
  obtain ⟨⟨operations, progress, rfl⟩, marks⟩ := later
  exact ⟨⟨operations, progress, rfl⟩, marks⟩

theorem supply_goes (supplier : Supplier) (path : Text) (pos : Position) :
    Goes engine quiet (supply engine ev supplier path pos) (supply engine ev' supplier path pos) := by
  refine Goes.get_bind fun m _ counted => ?_
  obtain ⟨operations, progress, rfl⟩ := counted
  cases supplier with
  | table number =>
    dsimp only
    cases m.world.table.find? ⟨number, path⟩ with
    | some found => exact Goes.give _
    | none => exact fail_goes _ pos
  | scripts number =>
    dsimp only
    cases m.world.loaded.find? ⟨number, path⟩ with
    | some found => exact Goes.give _
    | none =>
      dsimp only
      cases m.world.sources.find? ⟨number, path⟩ with
      | none => exact fail_goes _ pos
      | some source =>
        have load : Goes engine quiet
            (do let found ← whileLoading ⟨number, path⟩ do
                  let script ← compile engine false [source]
                  runModule ev script
                modify fun m => { m with world := { m.world with
                  loaded := m.world.loaded.insert ⟨number, path⟩ found } }
                return (⟨found, true⟩ : Supplied) : Run Supplied)
            (do let found ← whileLoading ⟨number, path⟩ do
                  let script ← compile engine false [source]
                  runModule ev' script
                modify fun m => { m with world := { m.world with
                  loaded := m.world.loaded.insert ⟨number, path⟩ found } }
                return (⟨found, true⟩ : Supplied)) := by
          refine Goes.bind (whileLoading_goes (Goes.bind (compile_goes false [source]) fun script =>
            runModule_goes hev script) ⟨number, path⟩) fun found => ?_
          refine Goes.bind (Goes.change fun m _ counted => ?_) fun _ => Goes.give _
          obtain ⟨operations, progress, rfl⟩ := counted
          exact ⟨⟨operations, progress, rfl⟩, fun _ => List.suffix_refl _⟩
        dsimp only
        split
        · exact Goes.bind (fail_goes _ pos) fun _ => load
        · exact load

theorem supplyFirst_goes (path : Text) (pos : Position) (suppliers : List Supplier) :
    Goes engine quiet (supplyFirst engine ev path pos suppliers)
      (supplyFirst engine ev' path pos suppliers) := by
  induction suppliers with
  | nil => exact fail_goes _ pos
  | cons supplier rest ih =>
    intro m m' counted
    have first : Match engine.Stops (Twins.Later quiet m) _ _ :=
      supply_goes hev supplier path pos m m' counted
    unfold supplyFirst
    generalize supply engine ev supplier path pos m = r at first ⊢
    generalize supply engine ev' supplier path pos m' = r' at first ⊢
    cases first with
    | ok later => exact .ok later
    | @error e n n' later =>
      cases e with
      | error e =>
        obtain ⟨cause, place⟩ := e
        cases cause with
        | moduleNotFound detail =>
          dsimp only
          split
          · exact (ih n n' later.twin).mono fun _ _ last => later.trans last
          · exact .error later
        | _ => exact .error later
      | _ => exact .error later
    | spent => exact .spent
    | @stopped e n r h =>
      cases e with
      | error e =>
        obtain ⟨cause, place⟩ := e
        cases cause with
        | moduleNotFound detail => exact h.elim
        | _ => exact .stopped h
      | _ => exact h.elim
    | @halted e n r h =>
      cases e with
      | error e =>
        obtain ⟨cause, place⟩ := e
        cases cause with
        | moduleNotFound detail => exact h.elim
        | _ => exact .halted h
      | _ => exact h.elim

theorem resolve_goes (path : Text) (pos : Position) :
    Goes engine quiet (resolve engine ev path pos) (resolve engine ev' path pos) := by
  unfold resolve
  split
  · exact fail_goes _ pos
  · exact supply_goes hev _ path pos
  · exact supplyFirst_goes hev path pos _

end

/-- A call may export whatever it likes, since it has a frame of its own. -/
def quietOf : Extent Prop → Prop
  | .call => True
  | .expr quiet => quiet
  | .stmt quiet => quiet

/-- What is to be shown of twin evaluations. Code may stand where nothing is to be exported if it
exports nothing. -/
def twins (hev : engine.Follows ev ev') : Charter engine where
  Side := Bool
  Level := Unit
  order := PUnit.instLinearOrder.toPreorder
  Way := Prop
  turn quiet := quiet
  plain _ _ := True
  Does x _ Q k := GoesTo engine (quietOf x) (Q ()) (k false) (k true)
  Works _ Q k := GoesTo engine True (Q ()) (k false) (k true)
  grow _ _ := trivial
  give h := GoesTo.give (h () le_rfl)
  fail _ _ := GoesTo.stop _
  bind hk hf := GoesTo.bind hk fun a ha => hf () a le_rfl ha
  raise h _ := h
  loose h := h.mono fun _ => trivial
  opened h := h
  block h := .of_goes h.goes.block
  loopTurn h := .of_goes (loopTurn_goes h.goes)
  openTurn h := .of_goes (loopTurn_goes h.goes)
  returning _ := GoesTo.stop _
  giveHeld h := GoesTo.give (h () le_rfl)
  failHeld _ _ := GoesTo.stop _
  bindHeld hk hf := GoesTo.bind hk fun a ha => hf () a le_rfl ha
  raiseHeld h _ := h
  held := .of_goes Goes.held
  setHeld _ := .of_goes (Goes.setHeld _)
  lift h := h.lift
  drop h _ := h.drop _
  zoom h _ _ := h.zoom _ _
  behind name pos h := ⟨h.goes.behind name pos, h.given.behind name pos⟩
  mode _ := engine.arithmetic
  ev side := if side then ev' else ev
  admits quiet c := quiet → c.Exportless
  parts h _ part quiet := (h quiet).parts part
  turns h _ turn quiet := (h quiet).turns turn
  room := True
  roomy _ := Or.inr trivial
  breaking _ := GoesTo.stop _
  continuing _ := GoesTo.stop _
  atom _ _ := trivial
  stringLiteral _ := trivial
  charLiteral _ := trivial
  typeName _ := trivial
  text _ _ := trivial
  items _ _ _ := trivial
  set _ _ _ := trivial
  entry _ _ := trivial
  insert _ _ _ := trivial
  curry _ _ := trivial
  collected _ _ := True
  nothing := trivial
  collect _ _ _ _ _ := trivial
  collected_grow _ _ := trivial
  reachable _ _ := True
  reachable_grow _ _ := trivial
  callable _ _ := True
  callable_grow _ _ := trivial
  exposed _ _ := trivial
  eval h := .of_goes ((hev.eval _).mono h)
  runBlock h := .of_goes (runBlock_goes hev fun quiet s hs => h s hs quiet)
  flatten _ := .of_goes (flatten_goes hev _)
  typeOf _ := .of_goes (typeOf_goes hev _)
  displayText _ := .of_goes (displayText_goes hev _)
  debugText _ := .of_goes (debugText_goes hev _)
  say message := .of_goes (say_goes message)
  checkSize v pos := .of_goes (checkSize_goes v pos)
  checkHeld v pos := .of_goes (checkSize_goes v pos)
  checkArray pos _ := .of_goes (checkSize_goes _ pos)
  checkMap pos _ := .of_goes (checkSize_goes _ pos)
  scriptFn? name arity exposedOnly := .whatever (scriptFn?_goes name arity exposedOnly) fun _ _ _ => trivial
  findModule path pos := .of_goes (findModule_goes path pos)
  resolve path pos := .of_goes (resolve_goes hev path pos)
  callScript pos _ _ := .of_goes ((callScript_goes hev _ _ pos).drop none)
  callNative name pos _ _ _ := .of_goes ((callNative_goes hev _ name false pos).drop _)
  callPointer pos _ _ := .of_goes ((hev.call True _ _ false pos).drop none)
  callOn pos _ _ _ := .of_goes ((hev.call True _ _ false pos).zoom _ _)
  callMethod name pos _ := .of_goes (callMethod_goes hev name _ pos)
  tryMethod name pos _ := .whatever (tryMethod_goes hev name _ pos) fun _ _ _ => trivial
  tryNative name pos _ := .whatever ((tryNative_goes hev name false pos).drop _) fun _ _ _ => trivial
  callByValue name pos _ := .of_goes (callByValue_goes hev name _ pos)
  readVariable pos name path := .of_goes (readVariable_goes hev pos name path)
  readThis pos := .of_goes (readThis_goes hev pos)
  isSharedVariable name pos := .of_goes (isSharedVariable_goes name pos)
  make _ _ := .of_goes (Goes.look (Fuller.refl _))
  closure _ := .of_goes (closure_goes _ _ _)
  atVariable name forWrite pos h := atVariable_goesTo hev (h.mono fun _ => trivial) name forWrite pos
  tryOnVariable name varPos variableName pos _ :=
    .whatever (tryOnVariable_goes hev name varPos variableName _ pos) fun _ _ _ => trivial
  onThis pos h := onThis_goesTo (h.mono fun _ => trivial) pos
  declare name isConst _ := .of_goes (declare_goes name _ isConst)
  execExport h := .of_goes ((execExport_goes _ _).mono fun quiet =>
    Exists.elim (h quiet) fun _ obeys => obeys.here)
  bindImport asName _ := .of_goes (bindImport_goes asName _)

theorem evalExpr_goes (hev : engine.Follows ev ev') (e : Expr) :
    Goes engine (Code.expr e).Exportless (evalExpr engine ev e) (evalExpr engine ev' e) :=
  (twins hev).evalExpr_after (l := ()) (w := (Code.expr e).Exportless) id
    (P := fun k => Goes engine (Code.expr e).Exportless (k false) (k true))
    fun _ hk => Goes.bind (tick_goes e.pos) fun _ => hk.goes

theorem execStmt_goes (hev : engine.Follows ev ev') (stmt : Stmt) :
    Goes engine (Code.stmt stmt).Exportless (execStmt engine ev stmt) (execStmt engine ev' stmt) := by
  refine (twins hev).execStmt_after (l := ()) (w := (Code.stmt stmt).Exportless) id ?_
    (P := fun k => Goes engine (Code.stmt stmt).Exportless (k false) (k true)) ?_
  · -- The second loop has more turns left than the first.
    intro condition body hcondition hbody
    have loop : ∀ n k, n ≤ k → GoesTo engine (Code.stmt stmt).Exportless (fun _ => True)
        (repeatWhile ev condition body n) (repeatWhile ev' condition body k) := by
      intro n
      induction n with
      | zero => exact fun k _ => .of_goes (Goes.spent _)
      | succ n ih =>
        intro k le
        obtain ⟨k, rfl⟩ : ∃ j, k = j + 1 := ⟨k - 1, by omega⟩
        have others : ∀ l, (twins hev).Does (.expr (Code.stmt stmt).Exportless) l
            (fun _ (_ : Unit) => True) fun side : Bool =>
              if side then repeatWhile ev' condition body k else repeatWhile ev condition body n :=
          fun _ => ih k (by omega)
        exact Charter.turn_does (C := twins hev) (l := ()) hcondition hbody others
    exact loop ev.fuel ev'.fuel hev.fuel
  · exact fun _ hk => Goes.bind (tick_goes stmt.pos) fun _ => hk.goes

/-- More fuel changes nothing about an evaluation that has enough. -/
theorem evaluator_follows (engine : Engine) {n k : Nat} (le : n ≤ k) :
    engine.Follows (evaluator engine n) (evaluator engine k) := by
  induction n generalizing k with
  | zero =>
    exact ⟨le, fun f s args => f.apply_fuller _ le s args, fun e => Goes.spent _, fun stmt => Goes.spent _,
      fun quiet name args exposedOnly pos => Goes.spent _⟩
  | succ n ih =>
    obtain ⟨k, rfl⟩ : ∃ j, k = j + 1 := ⟨k - 1, by omega⟩
    have inner := ih (show n ≤ k by omega)
    exact ⟨le, fun f s args => f.apply_fuller _ le s args, fun e => evalExpr_goes inner e,
      fun stmt => execStmt_goes inner stmt,
      fun quiet name args exposedOnly pos => callNamed_goes inner name args exposedOnly pos⟩

end Scripting.Eval
