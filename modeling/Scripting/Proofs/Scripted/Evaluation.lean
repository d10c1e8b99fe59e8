import Scripting.Proofs.Course.Lending
import Scripting.Proofs.Parsing.Checks
import Scripting.Proofs.Scripted.Parts

/-
Imports, evaluation as a whole, and the states that scripts reach. A module that is run for an import
has a frame of its own, and only its exported values leave it.
-/
namespace Scripting

theorem Engine.compiled_scripted {engine : Engine} {asExpression : Bool} {pieces : List Text}
    {first next : Nat} {script : Script}
    (compiled : engine.compile asExpression pieces first = (.ok script, next)) :
    script.Obeys Rule.scripted := by
  have small : script.Obeys (Grammar.rule Token.Small) :=
    Grammar.parse_obeys (fun token pos there => engine.dialect.tokens_small pieces (token, pos) there)
      compiled
  have once : script.Obeys fun _ c => ∀ pos name captured, c = .expr (.closure pos name captured) →
      captured.Nodup := by
    refine Script.obeys_closures (fun _ _ closes => closes) fun pos name captured literal => ?_
    obtain ⟨id, declared, f, -, -, -, -, -, closes, -⟩ := Engine.compiled_closure compiled literal
    have params := closes.once
    rw [closes.params] at params
    exact params.of_append_left
  refine (small.and once).mono ?_
  rintro looping c ⟨own, closes⟩
  unfold Rule.scripted
  split
  · exact own
  · exact closes _ _ _ rfl
  · trivial

namespace Scripted

variable {engine : Engine} {ev ev' : Evaluator} {kept : Bool} {base : Nat}

open Eval

theorem isolated_does {α : Type} {Q : Nat → α → Prop} {k k' : Run α} (h : Does false base Q k k')
    {library : Module} (scripted : library.Scripted base) :
    Does false base Q (isolated library k) (isolated library k') := by
  intro m hm le
  have back : ∀ n, (freshMachine m.world library).Later false n →
      m.Later false { m with world := n.world } :=
    fun n hn => ⟨hm.withWorld hn.scripted.world hn.size, hn.size, fun never => by cases never⟩
  rw [isolated_eq, isolated_eq]
  refine (h _ (Machine.Scripted.fresh hm.world (scripted.grow le)) le).map ?_ ?_
  · exact fun _ n hn => ⟨back n hn.1, hn.2⟩
  · exact fun _ n hn => ⟨back n hn.1, hn.2⟩

theorem whileLoading_does {α : Type} {Q : Nat → α → Prop} {k k' : Run α} (h : Does false base Q k k')
    (shelf : Shelf) : Does false base Q (whileLoading shelf k) (whileLoading shelf k') := by
  have marked : ∀ (m : Machine) (f : List Shelf → List Shelf), m.Scripted →
      m.Later false { m with world := { m.world with loading := f m.world.loading } } := fun m f hm =>
    later_idle hm m.operations m.world.progress m.world.nextClosure m.world.messages _
  intro m hm le
  have back : ∀ n, Machine.Later false
      { m with world := { m.world with loading := shelf :: m.world.loading } } n →
      m.Later false { n with world := { n.world with loading := n.world.loading.erase shelf } } :=
    fun n hn => ⟨(marked n (·.erase shelf) hn.scripted).scripted, hn.size, fun never => by cases never⟩
  rw [whileLoading_eq, whileLoading_eq]
  refine (h _ (marked m (shelf :: ·) hm).scripted le).map ?_ ?_
  · exact fun _ n hn => ⟨back n hn.1, hn.2⟩
  · exact fun _ n hn => ⟨back n hn.1, hn.2⟩

theorem compile_does (asExpression : Bool) (pieces : List Text) :
    Does kept base (fun _ script => script.Obeys Rule.scripted) (compile engine asExpression pieces)
      (compile engine asExpression pieces) := by
  intro m hm le
  have compiled : ∀ {script next}, engine.compile asExpression pieces m.world.nextClosure =
      (.ok script, next) → script.Obeys Rule.scripted := Engine.compiled_scripted
  unfold compile
  generalize engine.compile asExpression pieces m.world.nextClosure = result at compiled ⊢
  obtain ⟨result, next⟩ := result
  have after : m.Later kept { m with world := { m.world with nextClosure := next } } :=
    later_idle hm m.operations m.world.progress next m.world.messages m.world.loading
  cases result with
  | ok script => exact .ok ⟨after, compiled rfl⟩
  | error stop => cases stop <;> exact .error ⟨after, Halt.scripted_of_fault rfl⟩

section

variable (hev : Evaluators engine ev ev')
include hev

theorem runTop_does {statements : List Stmt}
    (obeys : ∀ s ∈ statements, Obeys Rule.scripted false (.stmt s)) :
    Does false base Value.Scripted (runTop ev statements) (runTop ev' statements) := by
  intro m hm le
  rw [runTop_eq, runTop_eq]
  exact (execAll_does hev Value.scripted_unit obeys).caughtReturn m hm le

theorem exports_does {entries : List Entry} (hentries : ∀ e ∈ entries, e.value.Passing base)
    {found : Dict Text Value} (hfound : ∀ e ∈ found, e.2.Scripted base) :
    Does kept base (fun size values => ∀ e ∈ values, Value.Scripted size e.2)
      (exports ev entries found) (exports ev' entries found) := by
  induction entries generalizing found base with
  | nil => exact Does.give fun _ le e he => (hfound e he).grow le
  | cons e rest ih =>
    have later : ∀ e ∈ rest, e.value.Passing base := fun e he => hentries e (List.mem_cons_of_mem _ he)
    unfold exports
    cases e.exported with
    | none => exact ih later hfound
    | some name =>
      refine Does.bind (flatten_does hev (hentries e List.mem_cons_self)) fun size v le hv => ?_
      refine ih (fun e he => (later e he).grow le) ?_
      exact Value.scripted_insert (fun e he => (hfound e he).grow le) name hv

theorem runModule_does {script : Script} (obeys : script.Obeys Rule.scripted) :
    Does false base (fun size found => Module.Scripted size found) (runModule ev script)
      (runModule ev' script) := by
  have library : ∀ size, script.library.Scripted size := fun _ => Module.Scripted.library obeys
  refine isolated_does ?_ (library base)
  refine Does.bind (runTop_does hev obeys.statements) fun _ _ _ _ => ?_
  refine Does.get_bind fun m hm _ => ?_
  have entries : ∀ e ∈ m.scope.oldestFirst, e.value.Passing m.store.size := fun e he =>
    hm.scope.passing _ (Scope.mem_values (List.mem_reverse.mp he))
  refine Does.bind (exports_does hev entries (by simp)) (fun size values le hvalues => ?_) m hm
    (Nat.le_refl _)
  refine Does.give fun more le' => .intro (library more).functions
    (fun e he => (hvalues e he).grow le') ?_
  exact fun e he => (hm.imports e (List.mem_reverse.mp (Dict.mem_ofList he))).grow (Nat.le_trans le le')

theorem supply_does (supplier : Supplier) (path : Text)
    (pos : Position) :
    Does false base (fun size s => Module.Scripted size s.supplied) (supply engine ev supplier path pos)
      (supply engine ev' supplier path pos) := by
  refine Does.get_bind fun m hm le => ?_
  cases supplier with
  | table number =>
    dsimp only
    cases known : m.world.table.find? ⟨number, path⟩ with
    | some found => exact .ok ⟨.refl hm, hm.world.table _ (Dict.mem_of_find? known)⟩
    | none => exact Does.fail _ pos m hm le
  | scripts number =>
    dsimp only
    cases known : m.world.loaded.find? ⟨number, path⟩ with
    | some found => exact .ok ⟨.refl hm, hm.world.loaded _ (Dict.mem_of_find? known)⟩
    | none =>
      cases m.world.sources.find? ⟨number, path⟩ with
      | none => exact Does.fail _ pos m hm le
      | some source =>
        have load : Does false base (fun size found => Module.Scripted size found)
            (whileLoading ⟨number, path⟩ (do runModule ev (← compile engine false [source])))
            (whileLoading ⟨number, path⟩ (do runModule ev' (← compile engine false [source]))) :=
          whileLoading_does (Does.bind (compile_does false [source]) fun _ script _ obeys =>
            runModule_does hev obeys) ⟨number, path⟩
        dsimp only
        split
        · exact Does.fail_bind _ pos m hm le
        · refine Does.bind load (fun size found _ scripted => ?_) m hm le
          refine Does.bind (Does.change fun n hn le => ?_) fun _ _ le _ =>
            Does.give fun _ le' => scripted.grow (Nat.le_trans le le')
          refine ⟨hn.withWorld ?_ (Nat.le_refl _), Nat.le_refl _, fun never => by cases never⟩
          exact hn.world.load (scripted.grow le) ⟨number, path⟩

theorem supplyFirst_does (path : Text) (pos : Position)
    (suppliers : List Supplier) :
    Does false base (fun size s => Module.Scripted size s.supplied)
      (supplyFirst engine ev path pos suppliers) (supplyFirst engine ev' path pos suppliers) := by
  induction suppliers generalizing base with
  | nil => exact Does.fail _ pos
  | cons supplier rest ih =>
    intro m hm le
    have ends := supply_does hev supplier path pos m hm le
    unfold supplyFirst
    generalize supply engine ev supplier path pos m = r at ends ⊢
    generalize supply engine ev' supplier path pos m = r' at ends ⊢
    cases ends with
    | ok h => exact .ok h
    | @error e n h =>
      cases e with
      | error e =>
        obtain ⟨cause, errorPos⟩ := e
        cases cause with
        | moduleNotFound detail =>
          dsimp only
          split
          · exact Does.after h.1 (ih n h.1.scripted (Nat.le_refl _))
          · exact .error h
        | _ => exact .error h
      | _ => exact .error h
    | excused never => exact never.elim

theorem resolve_does (path : Text) (pos : Position) :
    Does false base (fun size s => Module.Scripted size s.supplied) (resolve engine ev path pos)
      (resolve engine ev' path pos) := by
  unfold resolve
  split
  · exact Does.fail _ pos
  · exact supply_does hev _ path pos
  · exact supplyFirst_does hev path pos _

end

def keeps : Extent Bool → Bool
  | .call => true
  | _ => false

/-- What is said of two evaluations among the values of scripts. The level is the number of cells. -/
def charter (hev : Evaluators engine ev ev') (core : engine.OnCore) : Charter engine where
  Side := Bool
  Level := Nat
  Way := Bool
  turn _ := true
  plain := Value.Scripted
  Does x base Q k := Does (keeps x) base Q (k false) (k true)
  Works base Q k := Holds base Value.Scripted Q (k false) (k true)
  grow le h := h.grow le
  give := Does.give
  fail := Does.fail
  bind := Does.bind
  raise := Does.raise
  loose := Does.loose
  opened h := h
  block := Does.block
  loopTurn := Does.loopTurn
  openTurn := Does.loopTurn
  returning h := Does.stop fun _ le v eq => by cases eq; exact h.grow le
  giveHeld := Holds.give
  failHeld _ _ := Holds.fault rfl
  bindHeld := Holds.bind
  raiseHeld := Holds.raise
  held := Holds.held
  setHeld h := Holds.setHeld fun _ le => h.grow le
  lift := Holds.lift lasting_scripted
  drop h hv := Holds.drop h fun _ le => hv.grow le
  zoom h hpart hrestore := Holds.zoom lasting_scripted h (fun _ le => hpart.grow le) hrestore
  behind name pos h := Holds.behind h name pos
  mode _ := engine.arithmetic
  ev side := if side then ev' else ev
  admits := Obeys Rule.scripted
  parts h := h.parts
  turns h := h.turns
  room := True
  roomy _ := Or.inr trivial
  breaking _ := Does.stop fun _ _ v eq => by cases eq
  continuing _ := Does.stop fun _ _ v eq => by cases eq
  atom := Value.scripted_atom
  stringLiteral _ := Value.scripted_string _
  charLiteral h := .char h.here
  typeName _ := Value.scripted_string _
  text _ _ := Value.scripted_string _
  items h := (Value.scripted_array _).mp h
  set i h hv := Value.scripted_set h i hv
  entry h found := Value.scripted_entry h found
  insert h hv _ := .map (Value.scripted_insert ((Value.scripted_map _).mp h) _ hv)
  curry h hvs := scripted_curry h hvs
  collected size found := Value.Scripted size (.map found)
  nothing := .map (by simp)
  collect _ _ _ found hv := .map (Value.scripted_insert ((Value.scripted_map _).mp found) _ hv)
  collected_grow le h := Value.Scripted.grow h le
  reachable size m := m.Scripted size
  reachable_grow le h := h.grow le
  callable size t := t.function.Obeys Rule.scripted ∧ t.library.Scripted size
  callable_grow le h := ⟨h.1, h.2.grow le⟩
  exposed scripted found := ⟨scripted.scriptFn? found, scripted⟩
  eval h := (hev.eval _ _ h).raise (Nat.zero_le _)
  runBlock h := runBlock_does hev h
  flatten h := flatten_does hev h.passing
  typeOf _ := typeOf_does hev _
  displayText _ := displayText_does hev _
  debugText _ := debugText_does hev _
  say := say_does
  checkSize := checkSize_does
  checkHeld := checkSize_holds
  checkArray pos h := (checkSize_does _ pos).imp fun _ _ le _ => (Value.Scripted.array h).grow le
  checkMap pos h := (checkSize_does _ pos).imp fun _ _ le _ => Value.Scripted.grow h le
  scriptFn? := scriptFn?_does
  findModule := findModule_does
  resolve := resolve_does hev
  callScript pos h hvs := (callScript_holds hev h.1 h.2 (.own hvs) pos).drop fun _ _ => object_none
  callNative name pos scripted own hvs :=
    (callNative_holds hev receiver_own (scripted.functions _ own) name false pos).drop fun _ le =>
      have given := Own.grow hvs le
      ⟨fun v eq => given v (List.mem_of_mem_head? eq), given.tail.given⟩
  callPointer pos h hvs := (hev.call _ _ _ false pos (bindable_curry h hvs)).drop fun _ _ => object_none
  callOn pos hv h hvs := asThis_holds (hev.call _ _ _ false pos (bindable_curry h hvs)) hv
  callMethod name pos hvs := callMethod_holds hev core name hvs pos
  tryMethod name pos hvs := tryMethod_holds hev core name (Own.given hvs) pos
  tryNative name pos hvs := tryArgs_does hev core name (Own.given hvs) pos
  callByValue name pos hvs := callByValue_does hev core name hvs pos
  readVariable := readVariable_does hev
  readThis := readThis_does hev
  isSharedVariable := isSharedVariable_does
  make := make_does
  closure h := closure_does _ _ h.here
  atVariable name forWrite pos h := atVariable_does hev h name forWrite pos
  tryOnVariable name varPos variableName pos hvs :=
    tryOnVariable_does hev core name varPos variableName hvs pos
  onThis pos h := onThis_does h pos
  declare name isConst h := push_does name h isConst
  execExport _ := execExport_does _ _
  bindImport asName scripted := bindImport_does asName scripted

theorem evalExpr_does (hev : Evaluators engine ev ev') (core : engine.OnCore) {looping : Bool} {e : Expr}
    (obeys : Obeys Rule.scripted looping (.expr e)) :
    Does false base Value.Scripted (evalExpr engine ev e) (evalExpr engine ev' e) :=
  (charter hev core).evalExpr_after (l := base)
    (P := fun k => Does false base Value.Scripted (k false) (k true)) obeys
    fun _ hk => Does.bind (tick_does e.pos) fun _ _ le _ => Does.raise hk le

theorem execStmt_does (hev : Evaluators engine ev ev') (core : engine.OnCore) {looping : Bool}
    {stmt : Stmt} (obeys : Obeys Rule.scripted looping (.stmt stmt)) :
    Does false base Value.Scripted (execStmt engine ev stmt) (execStmt engine ev' stmt) := by
  have spent : ∀ l, (charter hev core).Does (.expr looping) l (fun _ (_ : Unit) => True)
      fun _ => throw .outOfFuel := fun _ => Does.stop fun _ _ => Halt.scripted_of_fault rfl
  refine (charter hev core).execStmt_after (l := base) obeys (fun condition body hcondition hbody => ?_)
    (P := fun k => Does false base Value.Scripted (k false) (k true)) ?_
  · have repeated : Does false base anything (repeatWhile ev condition body ev.fuel)
        (repeatWhile ev' condition body ev.fuel) :=
      Charter.repeatWhile_does (C := charter hev core) spent hcondition hbody ev.fuel
    change Does false base anything (repeatWhile ev condition body ev.fuel)
      (repeatWhile ev' condition body ev'.fuel)
    rw [hev.fuel]
    exact repeated
  · exact fun _ hk => Does.bind (tick_does stmt.pos) fun _ _ le _ => Does.raise hk le

theorem evaluators (core : engine.OnCore) {w : Machine → Option Halt}
    (silent : ∀ m : Machine, m.Scripted → w m = none) (fuel : Nat) :
    Evaluators engine (evaluator engine fuel) (watching engine w fuel) := by
  induction fuel with
  | zero =>
    have spent : ∀ size, Halt.Scripted size .outOfFuel := fun _ => Halt.scripted_of_fault rfl
    exact ⟨rfl, rfl, rfl, fun _ _ _ => Does.stop fun size _ => spent size,
      fun _ _ _ => Does.stop fun size _ => spent size,
      fun _ _ _ _ _ _ => Holds.stop fun size _ => spent size⟩
  | succ n ih =>
    refine ⟨rfl, rfl, rfl, fun _ e obeys m hm le => ?_, fun _ stmt obeys m hm le => ?_,
      fun base name args exposedOnly pos hargs => ?_⟩
    · refine (evalExpr_does ih core obeys m hm le).watched (silent m hm) ?_ ?_
      · exact fun _ n hn => silent n hn.1.scripted
      · exact fun _ n hn => silent n hn.1.scripted
    · refine (execStmt_does ih core obeys m hm le).watched (silent m hm) ?_ ?_
      · exact fun _ n hn => silent n hn.1.scripted
      · exact fun _ n hn => silent n hn.1.scripted
    · intro this m hm le hthis
      have called := callNamed_holds ih core name hargs exposedOnly pos this m hm le hthis
      refine called.watched (w := fun s => w s.2) (silent m hm) ?_ ?_
      · exact fun _ s hs => silent s.2 hs.2.1.scripted
      · exact fun _ s hs => silent s.2 hs.2.1.scripted

end Scripted

/-! ### Stages -/

structure Stage.Scripted (s : Stage) : Prop where
  world : s.world.Scripted
  scope : Bindable s.world.store.size s.scope.values
  this : ∀ v, s.this = some v → v.Scripted s.world.store.size

inductive Stage.Reached (engine : Engine) : Stage → Prop where
  | start (sources : Dict Shelf Text) : Reached engine { world := { sources } }
  | run {s : Stage} (h : Reached engine s) {pieces : List Text} {first next : Nat} {script : Script}
      (compiled : engine.compile false pieces first = (.ok script, next)) :
      Reached engine (ending (engine.run script s))

variable {engine : Engine} {s : Stage} {script : Script}

theorem Stage.Scripted.start (h : s.Scripted) (obeys : script.Obeys Rule.scripted) (depth : Nat) :
    (s.start script.library depth).Scripted where
  world := h.world
  scope := h.scope
  this := h.this
  library := .library obeys
  root := .library obeys
  imports := by simp [Stage.start]

theorem Machine.Scripted.stage {m : Machine} (h : m.Scripted) : m.stage.Scripted :=
  ⟨h.world, h.scope, h.this⟩

theorem Engine.runBy_scripted {ev ev' : Evaluator} (hev : Scripted.Evaluators engine ev ev')
    (hs : s.Scripted) (obeys : script.Obeys Rule.scripted) :
    Agree (fun _ => False) (fun _ t => Stage.Scripted t) (fun _ t => Stage.Scripted t)
      (Engine.runBy script ev s) (Engine.runBy script ev' s) := by
  have start := hs.start obeys 0
  unfold Engine.runBy
  rw [Engine.onStage_eq, Engine.onStage_eq, staged_eq, staged_eq]
  refine (Scripted.runTop_does hev obeys.statements _ start (Nat.zero_le _)).map ?_ ?_
  · exact fun _ _ hn => hn.1.scripted.stage
  · exact fun _ _ hn => hn.1.scripted.stage

variable (core : engine.OnCore)
include core

theorem Stage.Reached.scripted (h : s.Reached engine) : s.Scripted := by
  induction h with
  | start sources =>
    have cells : ∀ c, (({} : Store).cell c).value.Scripted 0 := fun c => Value.scripted_unit
    exact ⟨⟨cells, by simp, by simp⟩, .own (by simp [Scope.values]), by simp⟩
  | @run s h pieces first next script compiled ih =>
    have hev := Scripted.evaluators core (w := fun _ => none) (fun _ _ => rfl) ampleFuel
    have ends := Engine.runBy_scripted hev ih (Engine.compiled_scripted compiled)
    rw [show engine.run script s = Engine.runBy script engine.evaluator s from rfl]
    unfold Engine.evaluator
    generalize Engine.runBy script (Eval.evaluator engine ampleFuel) s = r at ends ⊢
    generalize Engine.runBy script _ s = r' at ends
    cases ends with
    | ok h => exact h
    | error h => exact h
    | excused never => exact never.elim

theorem Engine.Passes.scripted {m : Machine} (hs : s.Reached engine)
    (obeys : script.Obeys Rule.scripted) (passes : engine.Passes (Engine.runBy script) s m) :
    m.Scripted := by
  refine Classical.byContradiction fun broken => ?_
  obtain ⟨w, elsewhere, differs⟩ := passes
  have silent : ∀ n : Machine, n.Scripted → w n = none := by
    intro n hn
    refine elsewhere n ?_
    rintro rfl
    exact broken hn
  have hev := Scripted.evaluators core silent ampleFuel
  have agree := Engine.runBy_scripted hev (hs.scripted core) obeys
  exact differs (agree.eq fun _ _ _ => id)

end Scripting
