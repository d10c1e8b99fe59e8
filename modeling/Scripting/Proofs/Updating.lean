import Scripting.Proofs.Access.Compound
import Scripting.Proofs.Access.Writing

/-
Assignment to a place with fixed steps. Once the value is known, it is put where the place is and nowhere
else: the place holds it afterwards, and every place that does not lead through this one, nor this one
through it, holds what it held before.
-/
namespace Scripting

inductive Expr.Names : Expr → Place → Prop where
  | own {pos : Position} {name : Text} : Names (.var pos name []) ⟨.variable name, []⟩
  | qualified {pos : Position} {first : Text} {rest : List Text} {name : Text} :
      Names (.var pos name (first :: rest)) ⟨.qualified (first :: rest) name, []⟩
  | this {pos : Position} : Names (.this pos) ⟨.this, []⟩
  | item {pos at' : Position} {object : Expr} {n : Integer} {p : Place} (h : Names object p) :
      Names (.index pos object (.int at' n)) ⟨p.root, .item n :: p.keys⟩
  | entry {pos at' : Position} {object : Expr} {t : Text} {p : Place} (h : Names object p) :
      Names (.index pos object (.string at' t)) ⟨p.root, .entry t :: p.keys⟩
  | property {pos : Position} {object : Expr} {name : Text} {p : Place} (h : Names object p) :
      Names (.property pos object name) ⟨p.root, .entry name :: p.keys⟩

theorem Expr.Names.isPlace {e : Expr} {p : Place} (names : e.Names p) : e.IsPlace := by
  induction names with
  | own => exact .var
  | qualified => exact .var
  | this => exact .this
  | item _ ih => exact .index ih .int
  | entry _ ih => exact .index ih .string
  | property _ ih => exact .property ih

theorem Expr.Names.place? {e : Expr} {p : Place} (names : e.Names p) (m : Machine) :
    e.place? m = some p := by
  induction names with
  | own => rfl
  | qualified => rfl
  | this => rfl
  | item _ ih => simp [Expr.place?, ih, Expr.operand?, Value.key?]
  | entry _ ih => simp [Expr.place?, ih, Expr.operand?, Value.key?]
  | property _ ih => simp [Expr.place?, ih]

def Place.Apart (p q : Place) : Prop :=
  p.root = q.root → ¬ p.keys <:+ q.keys ∧ ¬ q.keys <:+ p.keys

namespace Machine

variable {m n : Machine} {root other : Root} {x : Value}

/-! ### What places hold -/

theorem Counted.start? (h : m.Counted n) (root : Root) : n.start? root = m.start? root := by
  obtain ⟨_, _, rfl⟩ := h
  cases root <;> rfl

theorem Counted.scripted (h : m.Counted n) (hm : m.Scripted) : n.Scripted := by
  obtain ⟨operations, progress, rfl⟩ := h
  exact hm.idle operations progress m.world.nextClosure m.world.messages m.world.loading

theorem Scripted.shallow (h : m.Scripted) : m.store.Shallow := fun c => (h.cells c).unshared

theorem descendant_scripted {size : Nat} {found sub : Module} (h : found.Scripted size) {path : List Text}
    (descends : found.descendant? path = some sub) : sub.Scripted size := by
  induction path generalizing found with
  | nil =>
    cases descends
    exact h
  | cons name rest ih =>
    obtain ⟨next, there, descends⟩ := Option.bind_eq_some_iff.mp descends
    exact ih (h.modules _ (Dict.mem_of_find? there)) descends

theorem Scripted.start (h : m.Scripted) {v : Value} (found : m.start? root = some v) :
    v.Scripted m.store.size := by
  have behind : ∀ {v w : Value}, v.Passing m.store.size → v.behind? m.store = some w →
      w.Scripted m.store.size := by
    intro v w passing shown
    cases v with
    | shared c =>
      obtain ⟨-, same⟩ := Option.ite_none_left_eq_some.mp shown
      cases same
      exact h.cells c
    | _ =>
      cases shown
      exact passing.own rfl
  cases root with
  | «variable» name =>
    obtain ⟨e, there, shown⟩ := Option.bind_eq_some_iff.mp found
    exact behind (h.entry there) shown
  | qualified path name =>
    obtain ⟨sub, there, held⟩ := Option.bind_eq_some_iff.mp found
    cases path with
    | nil => cases there
    | cons first rest =>
      obtain ⟨top, known, descends⟩ := Option.bind_eq_some_iff.mp there
      have scripted : top.Scripted m.store.size := by
        rcases Option.or_eq_some_iff.mp known with own | ⟨-, own⟩
        · exact h.imports _ (Dict.mem_of_find? own)
        · exact h.library.modules _ (Dict.mem_of_find? own)
      exact (descendant_scripted scripted descends).values _ (Dict.mem_of_find? held)
  | this =>
    obtain ⟨v, there, shown⟩ := Option.bind_eq_some_iff.mp found
    exact behind (h.this v there).passing shown

theorem Scripted.look (h : m.Scripted) (root : Root) (keys : List Key) :
    m.look root keys = (m.start? root).bind (·.inside? keys) := by
  induction keys with
  | nil => simp [Machine.look, Value.inside?]
  | cons k rest ih =>
    rw [Machine.look, ih]
    cases found : m.start? root with
    | none => rfl
    | some v =>
      simp only [Option.bind_some, Value.inside?]
      cases there : v.inside? rest with
      | none => rfl
      | some w =>
        rw [Option.bind_some, Option.bind_some]
        cases sees : k.sees w with
        | none => rfl
        | some part =>
          have own := (Key.sees_scripted (Value.inside?_scripted (h.start found) there) sees).unshared
          exact Value.behind?_of_own own m.store

/-! ### Another value at the start of a place -/

theorem putCell_cases {c : Nat} (put : m.putCell c x = some n) :
    (m.store.cell c).lock = (0, false) ∧ n = m.withStore (m.store.setValue c x) := by
  unfold putCell at put
  split at put
  · next free =>
    cases put
    exact ⟨free, rfl⟩
  · cases put

theorem Scripted.putCell (h : m.Scripted) {c : Nat} (hx : x.Scripted m.store.size)
    (put : m.putCell c x = some n) : n.Scripted ∧ n.store.size = m.store.size := by
  obtain ⟨-, rfl⟩ := putCell_cases put
  have size : (m.store.setValue c x).size = m.store.size := Store.size_put _ _ _
  refine ⟨h.withStore (Nat.le_of_eq size.symm) fun d => ?_, size⟩
  rw [size]
  exact Store.setValue_plain h.cells c hx d

theorem Scripted.putStart (h : m.Scripted) (hx : x.Scripted m.store.size)
    (put : m.putStart x root = some n) : n.Scripted := by
  cases root with
  | «variable» name =>
    obtain ⟨e, found, put⟩ := Option.bind_eq_some_iff.mp put
    split at put
    · exact (h.putCell hx put).1
    · cases put
      exact h.withScope (Scope.bindable_setValue h.scope hx)
  | qualified path name => cases put
  | this =>
    obtain ⟨v, found, put⟩ := Option.bind_eq_some_iff.mp put
    split at put
    · exact (h.putCell hx put).1
    · cases put
      exact h.setThis hx

theorem behind_putCell {c : Nat} (inside : c < m.store.size) (put : m.putCell c x = some n) :
    (Value.shared c).behind? n.store = some x := by
  obtain ⟨free, rfl⟩ := putCell_cases put
  have unlocked : (m.store.cell c).writer = false := congrArg Prod.snd free
  change (if ((m.store.setValue c x).cell c).writer then none else
    some ((m.store.setValue c x).cell c).value) = some x
  rw [Store.setValue, Store.cell_put_self inside]
  exact if_neg (by simp [unlocked])

theorem behind_putCell_of_ne {c : Nat} {v : Value} (apart : v ≠ .shared c)
    (put : m.putCell c x = some n) : v.behind? n.store = v.behind? m.store := by
  obtain ⟨-, rfl⟩ := putCell_cases put
  cases v with
  | shared d =>
    have ne : d ≠ c := fun same => apart (congrArg Value.shared same)
    change (if ((m.store.setValue c x).cell d).writer then none else
      some ((m.store.setValue c x).cell d).value) = _
    rw [Store.setValue, Store.cell_put_of_ne ne]
    rfl
  | _ => rfl

/-- The cell of a variable belongs to it alone. -/
theorem Scripted.start_putCell_of_ne (h : m.Scripted) {name : Text} {c : Nat}
    (stands : m.scope.Aliases name c) (put : m.putCell c x = some n) {other : Root}
    (ne : other ≠ .variable name) : n.start? other = m.start? other := by
  obtain ⟨-, same⟩ := putCell_cases put
  have scope : n.scope = m.scope := same ▸ rfl
  have this : n.this = m.this := same ▸ rfl
  cases other with
  | «variable» name' =>
    rw [Machine.start?, Machine.start?, scope]
    cases found : m.scope.find? name' with
    | none => rfl
    | some e =>
      refine behind_putCell_of_ne (fun shared => ne ?_) put
      exact congrArg Root.variable (Scope.aliases_inj h.scope.apart ⟨e, found, shared⟩ stands)
  | qualified path name' =>
    cases same
    rfl
  | this =>
    rw [Machine.start?, Machine.start?, this]
    cases there : m.this with
    | none => rfl
    | some v =>
      refine behind_putCell_of_ne (fun shared => ?_) put
      rw [shared] at there
      cases (h.this _ there).unshared

theorem Scripted.start_putStart (h : m.Scripted) (hx : x.Scripted m.store.size)
    (put : m.putStart x root = some n) :
    n.start? root = some x ∧ ∀ other, other ≠ root → n.start? other = m.start? other := by
  cases root with
  | «variable» name =>
    obtain ⟨e, found, put⟩ := Option.bind_eq_some_iff.mp put
    split at put
    · next c shared =>
      obtain ⟨-, same⟩ := putCell_cases put
      have scope : n.scope = m.scope := same ▸ rfl
      refine ⟨?_, fun other ne => h.start_putCell_of_ne ⟨e, found, shared⟩ put ne⟩
      rw [Machine.start?, scope, found, Option.bind_some, shared]
      exact behind_putCell ((h.entry found).there c shared) put
    · cases put
      constructor
      · rw [Machine.start?, Scope.find?_setValue_self found]
        exact Value.behind?_of_own hx.unshared _
      · intro other ne
        cases other with
        | «variable» name' =>
          have apart : name' ≠ name := fun same => ne (congrArg Root.variable same)
          rw [Machine.start?, Scope.find?_setValue_of_ne apart]
          rfl
        | qualified path name' => rfl
        | this => rfl
  | qualified path name => cases put
  | this =>
    obtain ⟨v, there, put⟩ := Option.bind_eq_some_iff.mp put
    split at put
    · cases (h.this _ there).unshared
    · cases put
      refine ⟨Value.behind?_of_own hx.unshared _, fun other ne => ?_⟩
      cases other with
      | «variable» name => rfl
      | qualified path name => rfl
      | this => exact absurd rfl ne

end Machine

/-! ### Assignment -/

namespace Eval

section
variable {engine : Engine} {m : Machine}

theorem literal_cases (unstopped : engine.Unstopped) {fuel : Nat} {e : Expr} {v w : Value}
    (eval : ∀ fuel n, evalAt engine (fuel + 1) e n = (tick engine e.pos >>= fun _ => pure v) n)
    {n o : Machine} (counted : m.Counted n) (ran : evalAt engine fuel e n = .ok w o) :
    w = v ∧ m.Counted o := by
  cases fuel with
  | zero => cases ran
  | succ fuel =>
    rw [eval] at ran
    obtain ⟨_, ticked, counted⟩ := tick_comes unstopped e.pos counted
    rw [bind_of_ok ticked] at ran
    cases ran
    exact ⟨rfl, counted⟩

variable (core : engine.OnCore) (unstopped : engine.Unstopped) (hm : m.Scripted)
include core unstopped hm

/-- Where work on a place succeeds, it changes the value at the start of the place, in its inside. -/
theorem access_makes {e : Expr} {p : Place} (names : e.Names p) {fuel : Nat}
    {change : Value → Option Value} {k : Held Value Unit} (makes : Makes m.store.size change k)
    {n n' : Machine} (counted : m.Counted n)
    (ran : access engine (evaluator engine fuel) e true k n = .ok () n') :
    ∃ o v v', m.Counted o ∧ o.start? p.root = some v ∧ Value.deep p.keys change v = some v' ∧
      o.putStart v' p.root = some n' := by
  induction names generalizing change k n with
  | @own pos name =>
    rw [← counted.store] at makes
    obtain ⟨v, v', found, changed, put⟩ := atVariable_makes makes (counted.scripted hm) ran
    exact ⟨n, v, v', counted, found, changed, put⟩
  | qualified => cases ran
  | @this pos =>
    rw [← counted.store] at makes
    rw [access_this] at ran
    cases found : n.this with
    | none =>
      rw [found] at ran
      cases ran
    | some w =>
      rw [found] at ran
      obtain ⟨v, v', found, changed, put⟩ := onThis_makes makes (counted.scripted hm) found ran
      exact ⟨n, v, v', counted, found, changed, put⟩
  | @item pos at' object i p _ ih =>
    obtain ⟨w, o, known, ran⟩ := bind_cases ran
    obtain ⟨rfl, counted⟩ := literal_cases unstopped (e := .int at' i) (fun _ _ => rfl) counted known
    exact ih (makes.atIndex core rfl pos) counted ran
  | @entry pos at' object t p _ ih =>
    obtain ⟨w, o, known, ran⟩ := bind_cases ran
    obtain ⟨rfl, counted⟩ := literal_cases unstopped (e := .string at' t) (fun _ _ => rfl) counted known
    exact ih (makes.atIndex core rfl pos) counted ran
  | @property pos object name p _ ih => exact ih (makes.atProperty core name pos) counted ran

/-- Where it succeeds in putting a value into a place, the place holds the value, and those apart from it
hold what they held. -/
theorem access_updates {e : Expr} {p : Place} (names : e.Names p) {fuel : Nat} {x : Value}
    (hx : x.Scripted m.store.size) {n : Machine}
    (ran : access engine (evaluator engine fuel) e true (Held.setHeld x) m = .ok () n) :
    n.Scripted ∧ n.look p.root p.keys = some x ∧
      ∀ q : Place, q.Apart p → n.look q.root q.keys = m.look q.root q.keys := by
  obtain ⟨o, v, v', counted, found, changed, put⟩ :=
    access_makes core unstopped hm names (makes_setHeld m.store.size x) (.refl m) ran
  have ho := counted.scripted hm
  rw [← counted.store] at hx
  have proper : Value.KeepsScripted o.store.size fun _ => some x := by
    intro w w' _ same
    cases same
    exact hx
  have hv := ho.start found
  obtain ⟨hv', w, w', -, made, there⟩ := Value.deep_changes proper hv changed
  cases made
  have hn := ho.putStart hv' put
  obtain ⟨here, others⟩ := ho.start_putStart hv' put
  refine ⟨hn, by rw [hn.look, here, Option.bind_some, there], fun q apart => ?_⟩
  rw [hn.look, hm.look, ← counted.start?]
  by_cases same : q.root = p.root
  · obtain ⟨noWhole, noPart⟩ := apart same
    rw [same, here, found, Option.bind_some, Option.bind_some]
    exact Value.deep_keeps proper hv changed noPart noWhole
  · rw [others q.root same]

theorem names_comesTo {e : Expr} {p : Place} (names : e.Names p) :
    ComesTo engine m e (m.look p.root p.keys) := by
  have known := place_comesTo core unstopped hm.shallow names.isPlace
  rwa [Expr.look, names.place? m, Option.bind_some] at known

omit unstopped in
theorem evalAt_scripted {looping : Bool} {e : Expr} (obeys : Obeys Rule.scripted looping (.expr e))
    {fuel : Nat} {v : Value} {n : Machine} (ran : evalAt engine fuel e m = .ok v n) :
    n.Scripted ∧ v.Scripted n.store.size := by
  have hev := Scripted.evaluators core (w := fun _ => none) (fun _ _ => rfl) fuel
  have ends : Ends _ _ (evalAt engine fuel e m) := (hev.eval looping e obeys m hm (Nat.zero_le _)).ends
  rw [ran] at ends
  exact ⟨ends.1.scripted, ends.2⟩

end

end Eval

theorem Machine.Counted.look {m n : Machine} (h : m.Counted n) (hm : m.Scripted) (root : Root)
    (keys : List Key) : n.look root keys = m.look root keys := by
  rw [hm.look, (h.scripted hm).look, h.start?]

open Eval in
/-- A successful assignment to a place with fixed steps: the place has the value of the right side, and
every place apart from it has what it had when this value was known. This is what it had before the
assignment, if evaluating the right side did nothing but count operations. -/
theorem assignment_changes_one_place {engine : Engine} (core : engine.OnCore)
    (limitless : engine.Limitless) {s : Stage} (reached : s.Reached engine) {pieces : List Text}
    {first next : Nat} {script : Script}
    (compiled : engine.compile false pieces first = (.ok script, next)) {m : Machine}
    (passes : engine.Passes (Engine.runBy script) s m) {target e : Expr} {p : Place}
    (names : target.Names p) {looping : Bool} (obeys : Obeys Rule.scripted looping (.expr e))
    {fuel : Nat} {pos : Position} {w : Value} {n : Machine}
    (ran : execAt engine fuel (.assign pos [] target e) m = .ok w n) :
    ∃ v m₀ m₁, m.Counted m₀ ∧ evalAt engine (fuel - 1) e m₀ = .ok v m₁ ∧
      ComesTo engine n target (some v) ∧
      ∀ (other : Expr) (q : Place), other.Names q → q.Apart p →
        ∃ r, ComesTo engine m₁ other r ∧ ComesTo engine n other r ∧
          (m.Counted m₁ → ComesTo engine m other r) := by
  have unstopped := limitless.toUnstopped
  have hm : m.Scripted := Engine.Passes.scripted core reached (Engine.compiled_scripted compiled) passes
  cases fuel with
  | zero => cases ran
  | succ fuel =>
    obtain ⟨m₀, ticked, counted⟩ := tick_comes unstopped pos (.refl m)
    obtain ⟨_, _, ticked', ran⟩ := bind_cases ran
    cases ticked.symm.trans ticked'
    obtain ⟨_, _, assigned, given⟩ := bind_cases ran
    cases given
    obtain ⟨v, m₁, valued, rest⟩ := bind_cases assigned
    obtain ⟨hm₁, hv⟩ := evalAt_scripted core (counted.scripted hm) obeys valued
    have plain : Eval.plain (evaluator engine fuel) v m₁ = .ok v m₁ := by
      cases v with
      | shared c => cases hv.unshared
      | _ => rfl
    obtain ⟨_, _, plain', rest⟩ := bind_cases rest
    cases plain.symm.trans plain'
    obtain ⟨_, _, sized, written⟩ := bind_cases rest
    rw [limitless.checkSize] at sized
    cases sized
    obtain ⟨hn, there, others⟩ := access_updates core unstopped hm₁ names hv written
    have value := names_comesTo core unstopped hn names
    rw [there] at value
    refine ⟨v, m₀, m₁, counted, valued, value, fun other q named apart => ?_⟩
    have after := names_comesTo core unstopped hn named
    rw [others q apart] at after
    refine ⟨_, names_comesTo core unstopped hm₁ named, after, fun quiet => ?_⟩
    rw [quiet.look hm]
    exact names_comesTo core unstopped hm named

/-! ### A pair of variables -/

/-- The script `let a = [0]; let b = 1;`. -/
def pairPieces : List Text := [Text.lit "let a = [0]; let b = 1;"]

def pairScript : Script := (Engine.standard.compile false pairPieces 0).1.toOption.getD {}

theorem pairScript_compiled : Engine.standard.compile false pairPieces 0 =
    (.ok pairScript, (Engine.standard.compile false pairPieces 0).2) := by
  have made : (Engine.standard.compile false pairPieces 0).1.toOption.isSome = true := by decide +kernel
  unfold pairScript
  generalize Engine.standard.compile false pairPieces 0 = result at made ⊢
  obtain ⟨_ | script, next⟩ := result
  · cases made
  · rfl

def pairStage : Stage := ending (Engine.standard.run pairScript { world := {} })

def pairMachine : Machine := pairStage.start pairScript.library 0

def pairItem : Expr := .index .nowhere (.var .nowhere (Text.lit "a") []) (.int .nowhere (Integer.ofNat 0))

def pairOther : Expr := .var .nowhere (Text.lit "b") []

theorem pairMachine_passes :
    pairStage.Reached Engine.standard ∧ Engine.standard.Passes (Engine.runBy pairScript) pairStage pairMachine := by
  refine ⟨.run (.start []) pairScript_compiled, ?_⟩
  have some' : pairScript.statements.isEmpty = false := by decide +kernel
  cases known : pairScript.statements with
  | nil =>
    rw [known] at some'
    cases some'
  | cons stmt rest => exact Engine.passes_start Engine.standard pairScript known pairStage

theorem pairMachine_scripted : pairMachine.Scripted :=
  Engine.Passes.scripted ⟨rfl, rfl⟩ pairMachine_passes.1 (Engine.compiled_scripted pairScript_compiled)
    pairMachine_passes.2

def Value.number? : Value → Option Integer
  | .int .i64 n => some n
  | _ => none

theorem Value.eq_of_number? {v : Value} {n : Integer} (h : v.number? = some n) : v = .i64 n := by
  unfold Value.number? at h
  split at h
  · cases h
    rfl
  · cases h

def pairOther? : EStateM.Result Halt Machine Value → Option Integer
  | .ok _ n => (n.start? (.variable (Text.lit "b"))).bind Value.number?
  | .error _ _ => none

theorem ok_of_pairOther? {r : EStateM.Result Halt Machine Value} {k : Integer} (h : pairOther? r = some k) :
    ∃ w n, r = .ok w n ∧ n.start? (.variable (Text.lit "b")) = some (.i64 k) := by
  cases r with
  | ok w n =>
    obtain ⟨v, found, number⟩ := Option.bind_eq_some_iff.mp h
    exact ⟨w, n, rfl, Value.eq_of_number? number ▸ found⟩
  | error e n => cases h

def assignSeven : Stmt := .assign .nowhere [] pairItem (.int .nowhere (Integer.ofNat 7))

theorem assignSeven_changes_item :
    ∃ w n, Eval.execAt .standard 3 assignSeven pairMachine = .ok w n ∧
      Eval.ComesTo .standard n pairItem (some (.i64 (Integer.ofNat 7))) ∧
      ∃ r, Eval.ComesTo .standard pairMachine pairOther r ∧ Eval.ComesTo .standard n pairOther r := by
  have succeeds : pairOther? (Eval.execAt .standard 3 assignSeven pairMachine) = some (Integer.ofNat 1) := by
    decide +kernel
  obtain ⟨w, n, ran, -⟩ := ok_of_pairOther? succeeds
  have literal : Obeys Rule.scripted false (.expr (.int .nowhere (Integer.ofNat 7))) :=
    .intro trivial (by simp [Code.parts]) (by simp [Code.turns])
  obtain ⟨v, m₀, m₁, counted, valued, here, others⟩ := assignment_changes_one_place ⟨rfl, rfl⟩
    standard_limitless pairMachine_passes.1 pairScript_compiled pairMachine_passes.2
    (.item .own) literal ran
  obtain ⟨rfl, counted⟩ := Eval.literal_cases standard_limitless.toUnstopped
    (e := .int .nowhere (Integer.ofNat 7)) (fun _ _ => rfl) counted valued
  have apart : Place.Apart ⟨.variable (Text.lit "b"), []⟩ ⟨.variable (Text.lit "a"), [.item (Integer.ofNat 0)]⟩ := by
    intro same
    cases same
  obtain ⟨r, -, after, before⟩ := others pairOther _ .own apart
  exact ⟨w, n, ran, here, r, before counted, after⟩

def assignFromBlock : Stmt :=
  .assign .nowhere [] pairItem (.block .nowhere
    [.assign .nowhere [] pairOther (.int .nowhere (Integer.ofNat 5)),
      .expr .nowhere (.int .nowhere (Integer.ofNat 1))])

theorem assignFromBlock_obeys : Obeys Rule.scripted false (.stmt assignFromBlock) := by
  have leaf : ∀ e : Expr, Rule.scripted false (.expr e) → (Code.expr e).parts = [] →
      (Code.expr e).turns = [] → Obeys Rule.scripted false (.expr e) := fun e here noParts noTurns =>
    .intro here (by simp [noParts]) (by simp [noTurns])
  have literal (n : Integer) := leaf (.int .nowhere n) trivial rfl rfl
  have name (x : Text) := leaf (.var .nowhere x []) trivial rfl rfl
  have inner : Obeys Rule.scripted false
      (.stmt (.assign .nowhere [] pairOther (.int .nowhere (Integer.ofNat 5)))) :=
    .intro trivial (by simp [Code.parts, literal, pairOther, name]) (by simp [Code.turns])
  have last : Obeys Rule.scripted false (.stmt (.expr .nowhere (.int .nowhere (Integer.ofNat 1)))) :=
    .intro trivial (by simp [Code.parts, literal]) (by simp [Code.turns])
  have block : Obeys Rule.scripted false (.expr (.block .nowhere
      [.assign .nowhere [] pairOther (.int .nowhere (Integer.ofNat 5)),
        .expr .nowhere (.int .nowhere (Integer.ofNat 1))])) :=
    .intro trivial (by simp [Code.parts, inner, last]) (by simp [Code.turns])
  have target : Obeys Rule.scripted false (.expr pairItem) :=
    .intro trivial (by simp [pairItem, Code.parts, literal, name]) (by simp [Code.turns])
  exact .intro trivial (by simp [assignFromBlock, Code.parts, target, block])
    (by simp [assignFromBlock, Code.turns])

/-- The right side of an assignment can change another variable. -/
theorem right_side_changes_other_place :
    pairStage.Reached .standard ∧ Engine.standard.Passes (Engine.runBy pairScript) pairStage pairMachine ∧
      pairItem.Names ⟨.variable (Text.lit "a"), [.item (Integer.ofNat 0)]⟩ ∧
      pairOther.Names ⟨.variable (Text.lit "b"), []⟩ ∧
      Eval.ComesTo .standard pairMachine pairOther (some (.i64 (Integer.ofNat 1))) ∧
      ∃ w n, Eval.execAt .standard 6 assignFromBlock pairMachine = .ok w n ∧
        Eval.ComesTo .standard n pairOther (some (.i64 (Integer.ofNat 5))) := by
  have before : ((pairMachine.start? (.variable (Text.lit "b"))).bind Value.number?) = some (Integer.ofNat 1) := by
    decide +kernel
  have succeeds : pairOther? (Eval.execAt .standard 6 assignFromBlock pairMachine) = some (Integer.ofNat 5) := by
    decide +kernel
  obtain ⟨v, found, number⟩ := Option.bind_eq_some_iff.mp before
  cases Value.eq_of_number? number
  obtain ⟨w, n, ran, after⟩ := ok_of_pairOther? succeeds
  have hn : n.Scripted := by
    have core : Engine.standard.OnCore := ⟨rfl, rfl⟩
    have hev := Scripted.evaluators core (w := fun _ => none) (fun _ _ => rfl) 6
    have ends : Ends _ _ (Eval.execAt .standard 6 assignFromBlock pairMachine) :=
      (hev.exec false _ assignFromBlock_obeys pairMachine pairMachine_scripted (Nat.zero_le _)).ends
    rw [ran] at ends
    exact ends.1.scripted
  have unstopped := standard_limitless.toUnstopped
  have first := Eval.names_comesTo ⟨rfl, rfl⟩ unstopped pairMachine_scripted (e := pairOther) .own
  have last := Eval.names_comesTo ⟨rfl, rfl⟩ unstopped hn (e := pairOther) .own
  rw [Machine.look, found] at first
  rw [Machine.look, after] at last
  exact ⟨pairMachine_passes.1, pairMachine_passes.2, .item .own, .own, first, w, n, ran, last⟩

end Scripting
