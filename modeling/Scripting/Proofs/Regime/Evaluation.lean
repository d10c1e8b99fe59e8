import Scripting.Proofs.Contract.Stage
import Scripting.Proofs.Regime.Parts

/-
Imports and evaluation as a whole under a regime. A module that is run for an import has a machine
of its own, so whatever leaves its statements is caught before it reaches the script that imports it.
-/
namespace Scripting.Regime

variable {engine : Engine} {R : Regime engine} {way : Way} {ev : Evaluator}

open Eval

theorem isolated_does {α : Type} {Q : α → Prop} {k : Run α} (h : R.Does way Q k) {library : Module}
    (sound : library.Sound R) : R.Does way Q (isolated library k) := by
  intro m hm
  rw [isolated_eq]
  refine (h _ (Machine.sound_fresh hm.world sound)).map ?_ ?_
  · exact fun _ n hn => ⟨hm.withWorld hn.1.world, hn.2⟩
  · exact fun _ n hn => ⟨hn.1, hn.2.imp_right fun inside => hm.withWorld inside.world⟩

theorem whileLoading_does {α : Type} {Q : α → Prop} {k : Run α} (h : R.Does way Q k) (shelf : Shelf) :
    R.Does way Q (whileLoading shelf k) := by
  have marked : ∀ (m : Machine) (f : List Shelf → List Shelf), m.Sound R →
      Machine.Sound R { m with world := { m.world with loading := f m.world.loading } } :=
    fun m f hm => hm.idle m.operations m.world.progress m.world.nextClosure m.world.messages _
  intro m hm
  rw [whileLoading_eq]
  refine (h _ (marked m (shelf :: ·) hm)).map ?_ ?_
  · exact fun _ n hn => ⟨marked n (·.erase shelf) hn.1, hn.2⟩
  · exact fun _ n hn => ⟨hn.1, hn.2.imp_right fun sound => marked n (·.erase shelf) sound⟩

theorem compile_does {asExpression : Bool} {pieces : List Text} {Q : Script → Prop}
    (compiles : ∀ nextClosure script next,
      engine.compile asExpression pieces nextClosure = (.ok script, next) → Q script) :
    R.Does way Q (compile engine asExpression pieces) := by
  intro m hm
  have compiled := compiles m.world.nextClosure
  unfold compile
  generalize engine.compile asExpression pieces m.world.nextClosure = result at compiled ⊢
  obtain ⟨result, next⟩ := result
  have after := hm.idle m.operations m.world.progress next m.world.messages m.world.loading
  cases result with
  | ok script => exact ⟨after, compiled script next rfl⟩
  | error stop =>
    cases stop with
    | fault e => exact ⟨allows_fault rfl, Or.inr after⟩
    | exhausted => exact ⟨allows_fault rfl, Or.inr after⟩

section

variable (hev : R.Evaluates ev)
include hev

theorem runTop_does {statements : List Stmt}
    (obeys : ∀ s ∈ statements, Obeys R.rule false (.stmt s)) :
    R.Does way R.plain (runTop ev statements) := by
  intro m hm
  rw [runTop_eq]
  exact (execAll_does hev R.plain_unit obeys).caughtReturn m hm

omit hev in
theorem exports_does {entries : List Entry} (hentries : ∀ e ∈ entries, R.passes e.value)
    {found : Dict Text Value} (hfound : ∀ e ∈ found, R.plain e.2) :
    R.Does way (fun values => ∀ e ∈ values, R.plain e.2) (exports ev entries found) := by
  induction entries generalizing found with
  | nil => exact Does.give hfound
  | cons e rest ih =>
    have later : ∀ e ∈ rest, R.passes e.value := fun e he => hentries e (List.mem_cons_of_mem _ he)
    unfold exports
    cases e.exported with
    | none => exact ih later hfound
    | some name =>
      refine Does.bind (flatten_does (hentries e List.mem_cons_self)) fun v hv => ?_
      refine ih later ?_
      intro x hx
      rcases Dict.mem_insert hx with rfl | old
      · exact hv
      · exact hfound x old

theorem runModule_does {script : Script} (obeys : script.Obeys R.rule) :
    R.Does way (fun found => found.Sound R) (runModule ev script) := by
  have library : script.library.Sound R := Module.sound_library obeys
  refine isolated_does ?_ library
  refine Does.bind (runTop_does hev obeys.statements) fun _ _ => ?_
  refine Does.get_bind fun m hm => ?_
  have entries : ∀ e ∈ m.scope.oldestFirst, R.passes e.value :=
    fun e he => hm.scope e (List.mem_reverse.mp he)
  refine Does.bind (exports_does entries (by simp)) (fun values hvalues => Does.give ?_) m hm
  refine .intro library.functions hvalues ?_
  intro e he
  exact hm.imports e (List.mem_reverse.mp (Dict.mem_ofList he))

theorem supply_does (supplier : Supplier) (path : Text) (pos : Position) :
    R.Does way (fun s => s.supplied.Sound R) (supply engine ev supplier path pos) := by
  refine Does.get_bind fun m hm => ?_
  cases supplier with
  | table number =>
    dsimp only
    cases known : m.world.table.find? ⟨number, path⟩ with
    | some found =>
      refine Does.give ?_ m hm
      exact hm.world.table _ (Dict.mem_of_find? known)
    | none => exact Does.fail _ pos m hm
  | scripts number =>
    dsimp only
    cases known : m.world.loaded.find? ⟨number, path⟩ with
    | some found =>
      refine Does.give ?_ m hm
      exact hm.world.loaded _ (Dict.mem_of_find? known)
    | none =>
      cases written : m.world.sources.find? ⟨number, path⟩ with
      | none => exact Does.fail _ pos m hm
      | some source =>
        have load : R.Does way (fun found => found.Sound R)
            (whileLoading ⟨number, path⟩ (do runModule ev (← compile engine false [source]))) := by
          have obeys := hm.world.sources _ (Dict.mem_of_find? written)
          exact whileLoading_does (Does.bind (compile_does obeys) fun script hscript =>
            runModule_does hev hscript) ⟨number, path⟩
        dsimp only
        split
        · exact Does.fail_bind _ pos m hm
        · refine Does.bind load (fun found sound => ?_) m hm
          refine Does.bind (Does.change fun n hn => ?_) fun _ _ => Does.give sound
          exact hn.withWorld (hn.world.load sound ⟨number, path⟩)

theorem supplyFirst_does (path : Text) (pos : Position) (suppliers : List Supplier) :
    R.Does way (fun s => s.supplied.Sound R) (supplyFirst engine ev path pos suppliers) := by
  induction suppliers with
  | nil => exact Does.fail _ pos
  | cons supplier rest ih =>
    intro m hm
    have ends : R.After way (fun s : Supplied => s.supplied.Sound R) _ :=
      supply_does hev supplier path pos m hm
    unfold supplyFirst
    generalize supply engine ev supplier path pos m = r at ends ⊢
    split
    · -- A module that is not there is no failure of sizes, so the machine is still sound.
      split
      · exact ih _ (ends.2.resolve_left (by simp [spoils, Halt.isTooLarge]))
      · exact ends
    · exact ends

theorem resolve_does (path : Text) (pos : Position) :
    R.Does way (fun s => s.supplied.Sound R) (resolve engine ev path pos) := by
  unfold resolve
  split
  · exact Does.fail _ pos
  · exact supply_does hev _ path pos
  · exact supplyFirst_does hev path pos _

end

def wayOf : Extent Bool → Way
  | .call => .call
  | .expr looping => .body looping
  | .stmt looping => .body looping

variable (R) in
/-- What a regime says of one evaluation. Its values have one level, since nothing about them depends
on the machine. -/
def charter (hev : R.Evaluates ev) : Charter engine where
  Side := Unit
  Level := Unit
  order := PUnit.instLinearOrder.toPreorder
  Way := Bool
  turn _ := true
  plain _ := R.plain
  Does x _ Q k := R.Does (wayOf x) (Q ()) (k ())
  Works _ Q k := R.Holds .call R.plain (Q ()) (k ())
  grow _ h := h
  give h := Does.give (h () le_rfl)
  fail cause pos := Does.fail cause pos
  bind hk hf := Does.bind hk fun a ha => hf () a le_rfl ha
  raise h _ := h
  loose h := Does.ofCall h
  opened h := h
  block h := Does.block h
  loopTurn h := Does.loopTurn h
  openTurn h := Does.loopTurn h
  returning h := Does.stop h
  giveHeld h := Holds.give (h () le_rfl)
  failHeld _ _ := Holds.stop (allows_fault rfl)
  bindHeld hk hf := Holds.bind hk fun a ha => hf () a le_rfl ha
  raiseHeld h _ := h
  held := Holds.held
  setHeld h := Holds.setHeld h
  lift h := Holds.lift h
  drop h hv := Holds.drop h hv
  zoom h hpart hrestore := Holds.zoom h hpart fun p v hp hv => hrestore () p v le_rfl hp hv
  behind name pos h := Holds.behind h name pos
  mode _ := engine.arithmetic
  ev _ := ev
  admits := Obeys R.rule
  parts h := h.parts
  turns h := h.turns
  room := R.roomy
  roomy h := h.here
  breaking h := Does.stop h.here
  continuing h := Does.stop h.here
  atom h _ := R.atom _ h
  stringLiteral h := h.here
  charLiteral _ := R.plain_char _
  typeName := R.typeNames
  text t roomy := (R.string t).mpr (roomy.1 t)
  items h := items_plain h
  set i h hv := plain_set h i hv
  entry h found := (entry_plain h found).2
  insert h hv room := plain_insert h hv room
  curry h hvs := plain_curry h hvs
  collected _ found := R.ordered found ∧ ∀ e ∈ found, R.plain (.string e.1) ∧ R.plain e.2
  nothing := ⟨R.empty, by simp⟩
  collect h e he found hv := ⟨R.inserted found.1, entries_insert found.2 (h.here e he) hv⟩
  collected_grow _ h := h
  reachable _ m := m.Sound R
  reachable_grow _ h := h
  callable _ t := t.function.Obeys R.rule ∧ t.library.Sound R
  callable_grow _ h := h
  exposed sound found := ⟨sound.scriptFn? found, sound⟩
  eval h := hev.eval _ _ h
  runBlock h := runBlock_does hev h
  flatten h := flatten_does (passes_of_plain h)
  typeOf _ := typeOf_does _
  displayText _ := displayText_does _
  debugText _ := debugText_does _
  say := say_does
  checkSize v pos := (checkSize_does v pos).imp fun _ _ => trivial
  checkHeld v pos := Holds.look (checkSize_faults v pos) fun _ _ => trivial
  checkArray pos h := (checkSize_does _ pos).imp fun _ fits => nearly_array h fits
  checkMap pos h := (checkSize_does _ pos).imp fun _ fits => (R.map _).mpr ⟨fits, h⟩
  scriptFn? := scriptFn?_does
  findModule := findModule_does
  resolve := resolve_does hev
  callScript pos h hvs := (callScript_holds hev h.1 h.2 (Plain.passing hvs) pos).drop object_none
  callNative name pos sound own hvs :=
    (callNative_works hev (sound.functions _ own).native name false pos).drop (Plain.args hvs)
  callPointer pos h hvs := (hev.call _ _ false pos (carries_curry h hvs)).drop object_none
  callOn pos hv h hvs := asThis_holds (hev.call _ _ false pos (carries_curry h hvs)) hv
  callMethod name pos hvs := callMethod_holds hev name hvs pos
  tryMethod name pos hvs := tryMethod_holds hev name (Plain.passing hvs) pos
  tryNative name pos hvs := (tryNative_works hev name false pos).drop (Plain.args hvs)
  callByValue name pos hvs := callByValue_does hev name hvs pos
  readVariable := readVariable_does
  readThis := readThis_does
  isSharedVariable := isSharedVariable_does
  make := make_does
  closure h := closure_does _ h.here
  atVariable name forWrite pos h := atVariable_does h.ofCall name forWrite pos
  tryOnVariable name varPos variableName pos hvs :=
    tryOnVariable_does hev name varPos variableName hvs pos
  onThis pos h := onThis_does h.ofCall pos
  declare name isConst h := Does.change fun _ hm => hm.push name (passes_of_plain h) isConst
  execExport _ := execExport_does _ _
  bindImport asName sound := bindImport_does asName sound

theorem evalExpr_does (hev : R.Evaluates ev) {looping : Bool} {e : Expr}
    (obeys : Obeys R.rule looping (.expr e)) :
    R.Does (.body looping) R.plain (evalExpr engine ev e) :=
  (R.charter hev).evalExpr_after (l := ()) (P := fun k => R.Does (.body looping) R.plain (k ())) obeys
    fun _ hk => Does.bind (tick_does e.pos) fun _ _ => hk

theorem execStmt_does (hev : R.Evaluates ev) {looping : Bool} {stmt : Stmt}
    (obeys : Obeys R.rule looping (.stmt stmt)) :
    R.Does (.body looping) R.plain (execStmt engine ev stmt) := by
  have spent : ∀ l, (R.charter hev).Does (.expr looping) l (fun _ (_ : Unit) => True)
      fun _ => throw .outOfFuel := fun _ => Does.stop (allows_fault rfl)
  refine (R.charter hev).execStmt_after (l := ()) obeys (fun condition body hcondition hbody => ?_)
    (P := fun k => R.Does (.body looping) R.plain (k ())) ?_
  · exact Charter.repeatWhile_does spent hcondition hbody ev.fuel
  · exact fun _ hk => Does.bind (tick_does stmt.pos) fun _ _ => hk

variable (R)

theorem evaluates (fuel : Nat) : R.Evaluates (evaluator engine fuel) := by
  induction fuel with
  | zero =>
    exact ⟨rfl, fun _ _ _ => Does.stop (allows_fault rfl), fun _ _ _ => Does.stop (allows_fault rfl),
      fun _ _ _ _ _ => Holds.stop (allows_fault rfl)⟩
  | succ n ih =>
    exact ⟨rfl, fun _ _ obeys => evalExpr_does ih obeys, fun _ _ obeys => execStmt_does ih obeys,
      fun name _ exposedOnly pos hargs => callNamed_holds ih name hargs exposedOnly pos⟩

end Scripting.Regime

namespace Scripting

variable {engine : Engine} {R : Regime engine}

structure Stage.Sound (R : Regime engine) (s : Stage) : Prop where
  world : s.world.Sound R
  scope : ∀ e ∈ s.scope, R.passes e.value
  this : ∀ v, s.this = some v → R.plain v

theorem Stage.Sound.start {s : Stage} (h : s.Sound R) {library : Module} (sound : library.Sound R)
    (depth : Nat) : (s.start library depth).Sound R where
  world := h.world
  scope := h.scope
  this := h.this
  library := sound
  root := sound
  imports _ never := by cases never

theorem Machine.Sound.stage {m : Machine} (h : m.Sound R) : m.stage.Sound R :=
  ⟨h.world, h.scope, h.this⟩

namespace Regime

/-- How something that a host starts ends: in a value or a fault, never in a signal of a body. -/
abbrev Staging {α : Type} (R : Regime engine) (Q : α → Prop) : EStateM.Result Halt Stage α → Prop :=
  Ends (fun a s => s.Sound R ∧ Q a)
    (fun h s => h.isFault = true ∧ (R.spoils h ∨ s.Sound R))

theorem staging {α : Type} {Q : α → Prop} {k : Run α} (hk : R.Does .call Q k) {s : Stage}
    (hs : s.Sound R) {library : Module} (sound : library.Sound R) (depth : Nat) :
    R.Staging Q (Engine.onStage library depth k s) := by
  rw [Engine.onStage_eq, staged_eq]
  refine (hk _ (hs.start sound depth)).map ?_ ?_
  · exact fun _ _ hn => ⟨hn.1.stage, hn.2⟩
  · exact fun _ _ hn => ⟨fault_of_call hn.1, hn.2.imp_right fun sound => sound.stage⟩

variable {script : Script} (obeys : script.Obeys R.rule) {s : Stage} (hs : s.Sound R)
include hs

theorem compileOn_staging {asExpression : Bool} {pieces : List Text} {Q : Script → Prop}
    (compiles : ∀ nextClosure script next,
      engine.compile asExpression pieces nextClosure = (.ok script, next) → Q script) :
    R.Staging Q (engine.compileOn asExpression pieces s) :=
  staging (compile_does compiles) hs Module.sound_empty 0

theorem resolveModule_staging (path : Text) (pos : Position) :
    R.Staging (fun found => found.supplied.Sound R) (engine.resolveModule path pos s) :=
  staging (resolve_does (R.evaluates _) path pos) hs Module.sound_empty 0

include obeys

theorem run_staging : R.Staging R.plain (engine.run script s) :=
  staging (runTop_does (R.evaluates _) obeys.statements) hs (Module.sound_library obeys) 0

theorem makeModule_staging : R.Staging (fun found => found.Sound R) (engine.makeModule script s) :=
  staging (runModule_does (R.evaluates _) obeys) hs Module.sound_empty 0

theorem callPointer_staging {fn : Value} (hfn : R.plain fn) {args : List Value}
    (hargs : R.Plain args) : R.Staging R.plain (engine.callPointer script fn args s) :=
  staging (callAlone_does (R.evaluates _) .nowhere hfn hargs) hs (Module.sound_library obeys) 0

theorem callFunction_staging (name : Text) {args : List Value} (hargs : R.Passing args) :
    R.Staging R.plain (engine.callFunction script name args s) := by
  unfold Engine.callFunction
  cases found : script.library.scriptFn? name args.length true with
  | none => exact ⟨rfl, Or.inr hs⟩
  | some f =>
    have body : f.Obeys R.rule := (Module.sound_library obeys).scriptFn? found
    refine staging (Does.block (Does.bind (Does.change fun m hm => hm.withScope ?_) fun _ _ => ?_)) hs
      (Module.sound_library obeys) 1
    · intro e he
      rcases Eval.mem_bindParams he with old | arg
      · exact hm.scope e old
      · exact hargs _ arg
    · exact runBody_does (R.evaluates _) body

end Regime

end Scripting
