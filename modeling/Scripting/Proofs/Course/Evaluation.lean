import Scripting.Proofs.Course.Parts

/-
Evaluation as a whole, surveyed. Every expression and every statement counts an operation before it
does anything else.
-/
namespace Scripting.Survey

variable {engine : Engine} {ι : Type} {L : Survey engine ι} {ev : ι → Evaluator}

open Eval

/-- What a survey says of a family of evaluations. The level is a machine, and a higher one is a machine
that it leads to. -/
def charter (hev : L.Evaluates ev) : Charter engine where
  Side := ι
  Level := Machine
  order :=
    { le := Machine.Onward
      le_refl := Machine.onward_refl
      le_trans := fun _ _ _ h h' => h.trans h' }
  Way := Bool
  turn _ := true
  plain _ := L.plain
  Does := L.Does
  Works := L.Works
  grow _ h := h
  give := Does.give
  fail cause pos _ _ _ := At.fail cause pos
  bind := Does.bind
  raise h le m hm onward := h m hm (Machine.Onward.trans le onward)
  loose := Does.loose
  opened h := h
  block h m hm onward := (h m hm onward).now.block.onwards
  loopTurn h m hm onward := (h m hm onward).now.loopTurn.onwards
  openTurn h m hm onward := (h m hm onward).now.loopTurn.onwards
  returning h m _ _ := .const (.error (.returning _) m) rfl ⟨fun _ => rfl, h⟩
  giveHeld h v m _ onward hv := .const (.ok _ (v, m)) rfl ⟨rfl, hv, fun n later => h n (onward.trans later)⟩
  failHeld cause pos v m _ _ hv := .const (.error (.cause cause pos) (v, m)) rfl ⟨rfl, hv, trivial⟩
  bindHeld := Works.bind
  raiseHeld h le v m hm onward hv := h v m hm (Machine.Onward.trans le onward) hv
  held v m _ _ hv := .const (.ok v (v, m)) rfl ⟨rfl, hv, fun _ _ => hv⟩
  setHeld h _ m _ _ _ := .const (.ok () (_, m)) rfl ⟨rfl, h, fun _ _ => trivial⟩
  lift h _ m hm onward hv := At.lift (h m hm onward) hv
  drop h hv m hm onward := (h _ m hm onward hv).drop
  zoom h hpart hrestore v m hm onward hv :=
    (h _ m hm onward hpart).zoom fun p hp => hrestore m p v onward hp hv
  behind name pos h _ _ hm onward hv := h.behind hm onward name pos hv
  mode _ := engine.arithmetic
  ev := ev
  admits := L.Permits
  parts h := h.parts
  turns h := h.turns
  room := True
  roomy _ := Or.inr trivial
  breaking _ m _ _ := .const (.error .breaking m) rfl ⟨fun _ => rfl, trivial⟩
  continuing _ m _ _ := .const (.error .continuing m) rfl ⟨fun _ => rfl, trivial⟩
  atom h _ := L.course.custody.leaf _ (Value.isLeaf_of_isAtom h)
  stringLiteral _ := L.course.custody.plain_string _
  charLiteral _ := L.course.custody.plain_char _
  typeName _ := L.course.custody.plain_string _
  text _ _ := L.course.custody.plain_string _
  items h := (L.course.custody.array _).mp h
  set i h hv := L.course.custody.plain_set h i hv
  entry h found := L.course.custody.plain_entry h found
  insert h hv _ := L.course.custody.plain_insert h _ hv
  curry := plain_curry
  collected _ found := L.plain (.map found)
  nothing := (L.course.custody.map []).mpr (by simp)
  collect _ _ _ found hv := L.course.custody.plain_insert found _ hv
  collected_grow _ h := h
  reachable := L.Reachable
  reachable_grow onward h := h.onward onward
  callable := L.Callable
  callable_grow onward h := h.onward onward
  exposed h script := h.exposed script
  eval h := (hev.eval _ _ h).does
  runBlock h := (runBlock_goes hev.exec h).does
  flatten h := (flattened_goes hev.toReads (Stock.passes_of_plain h)).does
  typeOf h := (typeOf_goes hev.toReads (Stock.passes_of_plain h)).does
  displayText h := (displayText_goes hev.toReads (Stock.passes_of_plain h)).does
  debugText h := (debugText_goes hev.toReads (Stock.passes_of_plain h)).does
  say message := (say_goes message).does
  checkSize v pos := (checkSize_goes v pos).does
  checkHeld v pos := (checkSize_holds v pos).works
  checkArray pos h :=
    ((checkSize_goes _ pos).imp fun _ _ => (L.course.custody.array _).mpr h).does
  checkMap pos h := ((checkSize_goes _ pos).imp fun _ _ => h).does
  scriptFn? := scriptFn?_does
  findModule path pos _ hm _ := (findModule_at path pos).reachable hm
  resolve path pos := resolve_does hev path pos
  callScript pos h hvs _ hm onward :=
    (callScript_at hev (h.onward onward) (Plain.passing hvs) pos hm).onwards
  callNative name pos h own hvs := (callNative_goes hev (h.fair.functions _ own) name hvs pos).does
  callPointer pos h hvs := (callPointer_goes hev _ (carries_curry h hvs) pos).does
  callOn pos hv h hvs := (callOn_holds hev _ (carries_curry h hvs) hv pos).works
  callMethod name pos hvs := (callMethod_holds hev name hvs pos).works
  tryMethod name pos hvs := (tryMethod_holds hev name (Plain.passing hvs) pos).works
  tryNative name pos hvs := (tryPlain_goes hev name hvs pos).does
  callByValue name pos hvs := (callByValue_goes hev name hvs pos).does
  readVariable pos name path := (readVariable_goes hev.toReads pos name path).does
  readThis pos := (readThis_goes hev.toReads pos).does
  isSharedVariable name pos := (isSharedVariable_goes name pos).does
  make name pos := (make_goes name pos).does
  closure h := (closure_goes _ h.here).does
  atVariable name forWrite pos h := atVariable_does h hev.toReads name forWrite pos
  tryOnVariable name varPos variableName pos hvs :=
    (tryOnVariable_goes hev name varPos variableName hvs pos).does
  onThis pos h := onThis_does h pos
  declare name isConst h := (declare_goes name h isConst).does
  execExport _ := (execExport_goes _ _).does
  bindImport asName h _ _ onward := (bindImport_at asName (h.onward onward).reaches).onwards

structure Next (L : Survey engine ι) extends L.Aspect where
  counts : ∀ m n, L.ready m → m.Since n → m.operations < n.operations →
    (0 < engine.limits.operations → m.operations < engine.limits.operations) → ready n

abbrev MovesAt (L : Survey engine ι) (m : Machine) (r : ι → EStateM.Result Halt Machine Value) : Prop :=
  L.Yields m (fun n => n) (fun v n => m.operations < n.operations ∧ L.plain v)
    (fun h n => m.operations < n.operations ∧ L.allows h) r

def Moves (L : Survey engine ι) (k : ι → Run Value) : Prop :=
  ∀ m, L.Ready m → L.MovesAt m fun i => k i m

theorem Moves.goes {k : ι → Run Value} (h : L.Moves k) : L.Goes False L.plain k := by
  intro m hm
  refine (h m hm).mono ?_ ?_
  · exact fun _ _ h => ⟨False.elim, h.2⟩
  · exact fun _ _ h => ⟨False.elim, h.2⟩

section Counted

variable (N : L.Next)

theorem tick_moves (pos : Position) {x : Extent Bool} {m : Machine} (hm : L.Ready m)
    {k : ι → Run Value} (hk : N.survey.Does x m (fun _ => L.plain) k) :
    L.MovesAt m fun i => (tick engine pos >>= fun _ => k i) m := by
  refine Yields.bind (tick_at pos m) ?_ fun _ _ h => h
  rintro _ n acts leads ⟨more, within⟩
  have hn := hm.leads leads
  have ready : N.survey.Ready n := ⟨hn.tidy, N.counts m n hm.ready leads.onward.toSince more within⟩
  refine (hk n ready leads.onward).now.onward.mono ?_ ?_
  · exact fun _ o h => ⟨Nat.lt_of_lt_of_le more h.1.operations, h.2.2⟩
  · exact fun _ o h => ⟨Nat.lt_of_lt_of_le more h.1.operations, h.2.2⟩

variable (hev : N.survey.Evaluates ev) {looping : Bool}
include hev

theorem evalExpr_moves {e : Expr} (permits : L.Permits looping (.expr e)) :
    L.Moves fun i => evalExpr engine (ev i) e := by
  intro m hm
  refine (charter hev).evalExpr_after (l := m) (P := fun k => L.MovesAt m fun i => k i m) permits ?_
  exact fun k hk => tick_moves N e.pos hm hk

theorem execStmt_moves {stmt : Stmt} (permits : L.Permits looping (.stmt stmt)) :
    L.Moves fun i => execStmt engine (ev i) stmt := by
  intro m hm
  refine (charter hev).execStmt_after (l := m) permits (fun condition body hcondition hbody => ?_)
    (P := fun k => L.MovesAt m fun i => k i m) ?_
  · exact (hev.loop looping condition body hcondition hbody).does
  · exact fun k hk => tick_moves N stmt.pos hm hk

end Counted

end Scripting.Survey
