import Mathlib.Order.Filter.Basic
import Scripting.Proofs.Course.Leads
import Scripting.Proofs.Running
import Scripting.Proofs.Sharing

/-
Many evaluations at once. A survey looks at a family of evaluations that differ in something that
should not matter in the end, such as the supply of fuel or what a watch has to say. The family
yields a result if acts lead to it and nearly all of its members agree on it; which members these
are may depend on the machines that the acts pass.
-/
namespace Scripting

structure Survey (engine : Engine) (ι : Type) where
  course : Course engine
  /-- Nearly all members, of those that do not mind that these machines are passed. -/
  silent : List Machine → Filter ι
  antitone : ∀ {vs ws}, vs ⊆ ws → silent ws ≤ silent vs
  /-- Whether a result may be that the fuel is used up. -/
  spent : Prop
  proper : ¬ spent → ∀ v, course.custody.plain v → v.Proper
  /-- The machines that the survey is about. -/
  ready : Machine → Prop
  kept : ∀ {m n : Machine}, m.Since n → ready m → ready n
  natives : ∀ m ∈ engine.nativeModules, m.Fair course.custody
  compiles : ∀ source nextClosure script next,
    engine.compile false [source] nextClosure = (.ok script, next) →
      script.Obeys (Rule.lending course.custody.lends)

namespace Survey

variable {engine : Engine} {ι : Type} (L : Survey engine ι)

abbrev plain (v : Value) : Prop := L.course.custody.plain v

abbrev passes (v : Value) : Prop := L.course.custody.passes v

structure Ready (m : Machine) : Prop where
  tidy : m.Tidy L.course.custody
  ready : L.ready m

def allows : Halt → Prop
  | .returning v => L.plain v
  | .outOfFuel => L.spent
  | _ => True

/-- The family `r` of results yields one that acts lead to from `m`. -/
def Yields {σ α : Type} (m : Machine) (view : σ → Machine) (good : α → σ → Prop)
    (bad : Halt → σ → Prop) (r : ι → EStateM.Result Halt σ α) : Prop :=
  ∃ acts out, L.course.Leads m acts (view (ending out)) ∧ Ends good bad out ∧
    ∀ᶠ i in L.silent (m.alone.visits acts), r i = out

variable {L}

theorem Ready.leads {m n : Machine} {acts : List Act} (h : L.Ready m)
    (leads : L.course.Leads m acts n) : L.Ready n :=
  ⟨leads.tidy h.tidy, L.kept leads.onward.toSince h.ready⟩

theorem allows_fault {h : Halt} (fault : h.isFault = true) (fueled : h = .outOfFuel → L.spent) :
    L.allows h := by
  cases h with
  | outOfFuel => exact fueled rfl
  | error e => trivial
  | _ => cases fault

namespace Yields

variable {σ τ α β : Type} {m m' : Machine} {view : σ → Machine} {view' : τ → Machine}
  {good : α → σ → Prop} {bad : Halt → σ → Prop}

theorem settled {r : ι → EStateM.Result Halt σ α} (out : EStateM.Result Halt σ α)
    (agree : ∀ᶠ i in L.silent [], r i = out) (same : view (ending out) = m)
    (ends : Ends good bad out) : L.Yields m view good bad r := by
  refine ⟨[], out, ?_, ends, agree.filter_mono (L.antitone (by simp))⟩
  rw [same]
  exact Course.leads_nil m

theorem const (out : EStateM.Result Halt σ α) (same : view (ending out) = m)
    (ends : Ends good bad out) : L.Yields m view good bad fun _ => out :=
  settled out (Filter.Eventually.of_forall fun _ => rfl) same ends

theorem mono {good' : α → σ → Prop} {bad' : Halt → σ → Prop} {r : ι → EStateM.Result Halt σ α}
    (h : L.Yields m view good bad r) (hgood : ∀ a s, good a s → good' a s)
    (hbad : ∀ e s, bad e s → bad' e s) : L.Yields m view good' bad' r := by
  obtain ⟨acts, out, leads, ends, agree⟩ := h
  exact ⟨acts, out, leads, ends.mono hgood hbad, agree⟩

theorem onward {r : ι → EStateM.Result Halt σ α} (h : L.Yields m view good bad r) :
    L.Yields m view (fun a s => m.Onward (view s) ∧ good a s)
      (fun e s => m.Onward (view s) ∧ bad e s) r := by
  obtain ⟨acts, out, leads, ends, agree⟩ := h
  cases out with
  | ok a s => exact ⟨acts, .ok a s, leads, ⟨leads.onward, ends⟩, agree⟩
  | error e s => exact ⟨acts, .error e s, leads, ⟨leads.onward, ends⟩, agree⟩

theorem transport {good' : β → τ → Prop} {bad' : Halt → τ → Prop} {r : ι → EStateM.Result Halt σ α}
    {g : EStateM.Result Halt σ α → EStateM.Result Halt τ β} (h : L.Yields m view good bad r)
    (hg : ∀ out acts, L.course.Leads m acts (view (ending out)) → Ends good bad out →
      ∃ acts', L.course.Leads m' acts' (view' (ending (g out))) ∧
        m.alone.visits acts ⊆ m'.alone.visits acts' ∧ Ends good' bad' (g out)) :
    L.Yields m' view' good' bad' fun i => g (r i) := by
  obtain ⟨acts, out, leads, ends, agree⟩ := h
  obtain ⟨acts', leads', visits, ends'⟩ := hg out acts leads ends
  refine ⟨acts', g out, leads', ends', ?_⟩
  exact (agree.filter_mono (L.antitone visits)).mono fun i same => congrArg g same

theorem map {good' : β → τ → Prop} {bad' : Halt → τ → Prop} {r : ι → EStateM.Result Halt σ α}
    {g : EStateM.Result Halt σ α → EStateM.Result Halt τ β} (h : L.Yields m view good bad r)
    (hg : ∀ out, Ends good bad out → view' (ending (g out)) = view (ending out) ∧
      Ends good' bad' (g out)) :
    L.Yields m view' good' bad' fun i => g (r i) := by
  refine h.transport fun out acts leads ends => ?_
  obtain ⟨same, ends'⟩ := hg out ends
  exact ⟨acts, same ▸ leads, fun _ hm => hm, ends'⟩

theorem restate {good' : α → τ → Prop} {bad' : Halt → τ → Prop} {r : ι → EStateM.Result Halt σ α}
    {f : σ → τ} (h : L.Yields m view good bad r) (same : ∀ s, view' (f s) = view s)
    (hgood : ∀ a s, good a s → good' a (f s)) (hbad : ∀ e s, bad e s → bad' e (f s)) :
    L.Yields m view' good' bad' fun i => inState f (r i) := by
  refine h.map fun out ends => ⟨?_, ends.map hgood hbad⟩
  cases out <;> exact same _

theorem last {good' : α → τ → Prop} {bad' : Halt → τ → Prop} {r : ι → EStateM.Result Halt σ α}
    {f : σ → τ} (h : L.Yields m view good bad r) (a : σ → Act)
    (hgood : ∀ b s, good b s → L.course.Leads (view s) [a s] (view' (f s)) ∧ good' b (f s))
    (hbad : ∀ e s, bad e s → L.course.Leads (view s) [a s] (view' (f s)) ∧ bad' e (f s)) :
    L.Yields m view' good' bad' fun i => inState f (r i) := by
  refine h.transport fun out acts leads ends => ?_
  cases out with
  | ok b s =>
    obtain ⟨ending, ends⟩ := hgood b s ends
    exact ⟨_, leads.append ending, leads.visits_left _, ends⟩
  | error e s =>
    obtain ⟨ending, ends⟩ := hbad e s ends
    exact ⟨_, leads.append ending, leads.visits_left _, ends⟩

theorem after {n : Machine} {acts : List Act} (first : L.course.Leads m acts n)
    {r : ι → EStateM.Result Halt σ α} (h : L.Yields n view good bad r) :
    L.Yields m view good bad r := by
  obtain ⟨more, out, leads, ends, agree⟩ := h
  refine ⟨acts ++ more, out, first.append leads, ends, ?_⟩
  exact agree.filter_mono (L.antitone (first.visits_right more))

/-- One act, and then the rest. -/
theorem act {n : Machine} {a : Act} (fits : L.course.Fits a m.alone)
    (next : a.next m.alone = n.alone) (onward : m.Onward n) {r : ι → EStateM.Result Halt σ α}
    (h : L.Yields n view good bad r) : L.Yields m view good bad r :=
  h.after (.act fits next onward)

theorem handle {good' : β → τ → Prop} {bad' : Halt → τ → Prop} {r : ι → EStateM.Result Halt σ α}
    {f : ι → EStateM.Result Halt σ α → EStateM.Result Halt τ β} (h : L.Yields m view good bad r)
    (hf : ∀ out acts, L.course.Leads m acts (view (ending out)) → Ends good bad out →
      L.Yields (view (ending out)) view' good' bad' fun i => f i out) :
    L.Yields m view' good' bad' fun i => f i (r i) := by
  obtain ⟨acts, out, leads, ends, agree⟩ := h
  obtain ⟨more, out', leads', ends', agree'⟩ := hf out acts leads ends
  refine ⟨acts ++ more, out', leads.append leads', ends', ?_⟩
  have first := agree.filter_mono (L.antitone (leads.visits_left more))
  have second := agree'.filter_mono (L.antitone (leads.visits_right more))
  filter_upwards [first, second] with i same same'
  rw [same, same']

theorem bind {good' : β → σ → Prop} {bad' : Halt → σ → Prop} {k : ι → EStateM Halt σ α}
    {f : ι → α → EStateM Halt σ β} {s : σ} (h : L.Yields m view good bad fun i => k i s)
    (hf : ∀ a t acts, L.course.Leads m acts (view t) → good a t →
      L.Yields (view t) view good' bad' fun i => f i a t)
    (hbad : ∀ e t, bad e t → bad' e t) : L.Yields m view good' bad' fun i => (k i >>= f i) s := by
  refine h.handle (f := fun i out => ((fun _ => out : EStateM Halt σ α) >>= f i) s) ?_
  intro out acts leads ends
  cases out with
  | ok a t => exact hf a t acts leads ends
  | error e t => exact const (.error e t) rfl (hbad e t ends)

end Yields

variable (L)

/-- The results of evaluations that start in `m`. If they are made aside, the variables stay as they
are. What they give is judged by the machine that they end in. -/
abbrev At {α : Type} (aside : Prop) (m : Machine) (Q : Machine → α → Prop)
    (r : ι → EStateM.Result Halt Machine α) : Prop :=
  L.Yields m (fun n => n) (fun a n => (aside → n.scope = m.scope) ∧ Q n a)
    (fun h n => (aside → n.scope = m.scope) ∧ L.allows h) r

def Goes {α : Type} (aside : Prop) (Q : α → Prop) (k : ι → Run α) : Prop :=
  ∀ m, L.Ready m → L.At aside m (fun _ => Q) fun i => k i m

abbrev WorksAt {φ α : Type} (P : φ → Prop) (m : Machine) (Q : Machine → α → Prop)
    (r : ι → EStateM.Result Halt (φ × Machine) α) : Prop :=
  L.Yields m Prod.snd (fun a s => s.2.scope = m.scope ∧ P s.1 ∧ Q s.2 a)
    (fun h s => s.2.scope = m.scope ∧ P s.1 ∧ L.allows h) r

abbrev HeldAt {φ α : Type} (P : φ → Prop) (m : Machine) (Q : α → Prop)
    (r : ι → EStateM.Result Halt (φ × Machine) α) : Prop := L.WorksAt P m (fun _ => Q) r

def Takes {φ α : Type} (P P' : φ → Prop) (Q : α → Prop) (k : ι → Held φ α) : Prop :=
  ∀ x m, L.Ready m → P x → L.HeldAt P' m Q fun i => k i (x, m)

abbrev Holds {φ α : Type} (P : φ → Prop) (Q : α → Prop) (k : ι → Held φ α) : Prop := L.Takes P P Q k

/-- What is true of a value from a machine on. -/
def Onwards {α : Type} (Q : Machine → α → Prop) (m : Machine) (a : α) : Prop :=
  ∀ n, m.Onward n → Q n a

/-- Work on a plain value in the machines that `base` leads to. -/
def Works {α : Type} (base : Machine) (Q : Machine → α → Prop) (k : ι → Held Value α) : Prop :=
  ∀ v m, L.Ready m → base.Onward m → L.plain v → L.WorksAt L.plain m (Onwards Q) fun i => k i (v, m)

variable {L} {aside : Prop} {α β γ φ ψ : Type} {P : φ → Prop} {Q : α → Prop} {R : β → Prop}
  {m base : Machine} {Q' : Machine → α → Prop} {R' : Machine → β → Prop}

theorem Onwards.onward {a : α} (h : Onwards Q' m a) {n : Machine} (onward : m.Onward n) :
    Onwards Q' n a := fun o later => h o (onward.trans later)

namespace At

theorem give {a : α} (h : Q' m a) : L.At aside m Q' fun _ => (pure a : Run α) m :=
  .const (.ok a m) rfl ⟨fun _ => rfl, h⟩

theorem fail (cause : Cause) (pos : Position) :
    L.At aside m Q' fun _ => (Run.fail cause pos : Run α) m :=
  .const (.error (.cause cause pos) m) rfl ⟨fun _ => rfl, trivial⟩

theorem bind (hm : L.Ready m) {k : ι → Run α} {f : ι → α → Run β}
    (hk : L.At aside m Q' fun i => k i m)
    (hf : ∀ a n, m.Onward n → L.Ready n → Q' n a → L.At aside n R' fun i => f i a n) :
    L.At aside m R' fun i => (k i >>= f i) m := by
  refine Yields.bind hk ?_ fun _ _ h => h
  rintro a n acts leads ⟨scope, ha⟩
  refine (hf a n leads.onward (hm.leads leads) ha).mono ?_ ?_
  · exact fun b o ho => ⟨fun yes => (ho.1 yes).trans (scope yes), ho.2⟩
  · exact fun e o ho => ⟨fun yes => (ho.1 yes).trans (scope yes), ho.2⟩

theorem get_bind {f : ι → Machine → Run β} (hf : L.At aside m R' fun i => f i m m) :
    L.At aside m R' fun i => (get >>= f i) m := hf

theorem block {k : ι → Run α} (h : L.At False m (fun _ => Q) fun i => k i m) :
    L.At False m (fun _ => Q) fun i => Run.block (k i) m := by
  simp only [Run.block_eq]
  refine h.transport fun out acts leads ends => ?_
  cases out with
  | ok a n => exact ⟨_, leads.block _, leads.visits_left _, False.elim, ends.2⟩
  | error e n => exact ⟨_, leads.block _, leads.visits_left _, False.elim, ends.2⟩

theorem loopTurn {k : ι → Run Value} (h : L.At aside m (fun _ => L.plain) fun i => k i m) :
    L.At aside m (fun _ _ => True) fun i => Eval.loopTurn (k i) m := by
  refine h.map (g := fun out => Eval.loopTurn (fun _ => out) m) fun out ends => ?_
  cases out with
  | ok v n => exact ⟨rfl, ends.1, trivial⟩
  | error e n => cases e <;> exact ⟨rfl, ends⟩

theorem lift {k : ι → Run α} (h : L.At True m Q' fun i => k i m) {x : φ} (hx : P x) :
    L.WorksAt P m Q' fun i => Held.lift (k i) (x, m) := by
  simp only [Held.lift_eq]
  refine h.restate (fun _ => rfl) ?_ ?_
  · exact fun _ _ hn => ⟨hn.1 trivial, hx, hn.2⟩
  · exact fun _ _ hn => ⟨hn.1 trivial, hx, hn.2⟩

end At

namespace Goes

theorem give {a : α} (h : Q a) : L.Goes aside Q fun _ => pure a := by
  intro m _
  exact .const (.ok a m) rfl ⟨fun _ => rfl, h⟩

theorem stop {h : Halt} (allowed : L.allows h) : L.Goes aside Q fun _ => throw h := by
  intro m _
  exact .const (.error h m) rfl ⟨fun _ => rfl, allowed⟩

theorem fail (cause : Cause) (pos : Position) : L.Goes aside Q fun _ => Run.fail cause pos :=
  stop trivial

theorem imp {Q' : α → Prop} {k : ι → Run α} (h : L.Goes aside Q k) (weaker : ∀ a, Q a → Q' a) :
    L.Goes aside Q' k := by
  intro m hm
  exact (h m hm).mono (fun a n hn => ⟨hn.1, weaker a hn.2⟩) fun _ _ hn => hn

theorem bind {k : ι → Run α} {f : ι → α → Run β} (hk : L.Goes aside Q k)
    (hf : ∀ a, Q a → L.Goes aside R fun i => f i a) : L.Goes aside R fun i => k i >>= f i := by
  intro m hm
  exact At.bind hm (hk m hm) fun a n _ hn ha => hf a ha n hn

theorem get_bind {f : ι → Machine → Run β}
    (hf : ∀ m, L.Ready m → L.At aside m (fun _ => R) fun i => f i m m) :
    L.Goes aside R fun i => get >>= f i :=
  fun m hm => At.get_bind (hf m hm)

theorem act {f : Machine → Machine} (a : Machine → Act)
    (fits : ∀ m, L.Ready m → L.course.Fits (a m) m.alone)
    (next : ∀ m, (a m).next m.alone = (f m).alone) (onward : ∀ m, L.Ready m → m.Onward (f m))
    (scope : aside → ∀ m, (f m).scope = m.scope) :
    L.Goes aside (fun _ => True) fun _ => (modify f : Run PUnit) := by
  intro m hm
  refine Yields.act (fits m hm) (next m) (onward m hm) ?_
  exact .const (.ok () (f m)) rfl ⟨fun yes => scope yes m, trivial⟩

theorem look {r : Except Halt α} (faults : OnlyFaults r) (fueled : r ≠ .error .outOfFuel)
    (h : ∀ a, r = .ok a → Q a) : L.Goes aside Q fun _ => liftM r := by
  cases r with
  | ok a => exact give (h a rfl)
  | error e =>
    apply stop
    apply allows_fault (faults e rfl)
    rintro rfl
    exact absurd rfl fueled

theorem mapM {f : ι → γ → Run α} {xs : List γ} (h : ∀ x ∈ xs, L.Goes aside Q fun i => f i x) :
    L.Goes aside (fun as => ∀ a ∈ as, Q a) fun i => xs.mapM (f i) := by
  induction xs with
  | nil => exact give (by simp)
  | cons x rest ih =>
    simp only [List.mapM_cons]
    apply bind (h x List.mem_cons_self)
    intro a ha
    apply bind (ih fun y hy => h y (List.mem_cons_of_mem _ hy))
    intro as has
    exact give (List.forall_mem_cons.mpr ⟨ha, has⟩)

theorem block {k : ι → Run α} (h : L.Goes False Q k) : L.Goes False Q fun i => Run.block (k i) :=
  fun m hm => At.block (h m hm)

theorem caughtReturn {k : ι → Run Value} (h : L.Goes aside L.plain k) :
    L.Goes aside L.plain fun i m => caughtReturn (k i m) := by
  intro m hm
  refine (h m hm).map fun out ends => ?_
  cases out with
  | ok v n => exact ⟨rfl, ends⟩
  | error e n => cases e <;> exact ⟨rfl, ends⟩

end Goes

namespace WorksAt

theorem bind (hm : L.Ready m) {k : ι → Held φ α} {f : ι → α → Held φ β} {x : φ}
    (hk : L.WorksAt P m Q' fun i => k i (x, m))
    (hf : ∀ a y n, m.Onward n → L.Ready n → P y → Q' n a →
      L.WorksAt P n R' fun i => f i a (y, n)) :
    L.WorksAt P m R' fun i => (k i >>= f i) (x, m) := by
  refine Yields.bind hk ?_ fun _ _ h => h
  rintro a ⟨y, n⟩ acts leads ⟨scope, hy, ha⟩
  have scope : n.scope = m.scope := scope
  refine (hf a y n leads.onward (hm.leads leads) hy ha).mono ?_ ?_
  · exact fun b s hs => ⟨hs.1.trans scope, hs.2⟩
  · exact fun e s hs => ⟨hs.1.trans scope, hs.2⟩

theorem drop {x : φ} {k : ι → Held φ α} (h : L.WorksAt P m Q' fun i => k i (x, m)) :
    L.At aside m Q' fun i => Held.drop x (k i) m := by
  simp only [Held.drop_eq]
  refine h.restate (fun _ => rfl) ?_ ?_
  · exact fun _ _ hs => ⟨fun _ => hs.1, hs.2.2⟩
  · exact fun _ _ hs => ⟨fun _ => hs.1, hs.2.2⟩

theorem zoom {S : ψ → Prop} {part : ψ} {restore : ψ → φ → φ} {k : ι → Held ψ α} {x : φ}
    (h : L.WorksAt S m Q' fun i => k i (part, m)) (hrestore : ∀ p, S p → P (restore p x)) :
    L.WorksAt P m Q' fun i => Held.zoom part restore (k i) (x, m) := by
  simp only [Held.zoom_eq]
  refine h.restate (fun _ => rfl) ?_ ?_
  · exact fun _ s hs => ⟨hs.1, hrestore s.1 hs.2.1, hs.2.2⟩
  · exact fun _ s hs => ⟨hs.1, hrestore s.1 hs.2.1, hs.2.2⟩

theorem lift_bind (hm : L.Ready m) {k : ι → Run α} {f : ι → α → Held φ β} {x : φ}
    (hk : L.At True m Q' fun i => k i m)
    (hf : ∀ a n, m.Onward n → L.Ready n → Q' n a → L.WorksAt P n R' fun i => f i a (x, n))
    (hx : P x) : L.WorksAt P m R' fun i => (Held.lift (k i) >>= f i) (x, m) := by
  have lifted := At.lift (P := (· = x)) hk rfl
  refine Yields.bind lifted ?_ fun e s hs => ⟨hs.1, hs.2.1 ▸ hx, hs.2.2⟩
  rintro a ⟨y, n⟩ acts leads ⟨scope, rfl, ha⟩
  refine (hf a n leads.onward (hm.leads leads) ha).mono ?_ ?_
  · exact fun _ s hs => ⟨hs.1.trans scope, hs.2⟩
  · exact fun _ s hs => ⟨hs.1.trans scope, hs.2⟩

end WorksAt

namespace Holds

theorem give {a : α} (h : Q a) : L.Holds P Q fun _ => pure a := by
  intro x m _ hx
  exact .const (.ok a (x, m)) rfl ⟨rfl, hx, h⟩

theorem stop {h : Halt} (allowed : L.allows h) : L.Holds P Q fun _ => throw h := by
  intro x m _ hx
  exact .const (.error h (x, m)) rfl ⟨rfl, hx, allowed⟩

theorem fail (cause : Cause) (pos : Position) : L.Holds P Q fun _ => throw (.cause cause pos) :=
  stop trivial

theorem bind {k : ι → Held φ α} {f : ι → α → Held φ β} (hk : L.Holds P Q k)
    (hf : ∀ a, Q a → L.Holds P R fun i => f i a) : L.Holds P R fun i => k i >>= f i := by
  intro x m hm hx
  exact WorksAt.bind hm (hk x m hm hx) fun a y n _ hn hy ha => hf a ha y n hn hy

theorem held : L.Holds P P fun _ => Held.held := by
  intro x m _ hx
  exact .const (.ok x (x, m)) rfl ⟨rfl, hx, hx⟩

theorem setHeld {x : φ} (h : P x) : L.Holds P (fun _ => True) fun _ => Held.setHeld x := by
  intro y m _ _
  exact .const (.ok () (x, m)) rfl ⟨rfl, h, trivial⟩

theorem look {r : Except Halt α} (faults : OnlyFaults r) (fueled : r ≠ .error .outOfFuel)
    (h : ∀ a, r = .ok a → Q a) : L.Holds P Q fun _ => liftM r := by
  cases r with
  | ok a => exact give (h a rfl)
  | error e =>
    apply stop
    apply allows_fault (faults e rfl)
    rintro rfl
    exact absurd rfl fueled

theorem lift {k : ι → Run α} (h : L.Goes True Q k) : L.Holds P Q fun i => Held.lift (k i) :=
  fun _ m hm hx => At.lift (h m hm) hx

end Holds

theorem Takes.lift_bind {P' : φ → Prop} {k : ι → Run α} {f : ι → α → Held φ β}
    (hk : L.Goes True Q k) (hf : ∀ a, Q a → L.Takes P P' R fun i => f i a)
    (stays : ∀ x, P x → P' x) : L.Takes P P' R fun i => Held.lift (k i) >>= f i :=
  fun x m hm hx => WorksAt.lift_bind hm (hk m hm) (fun a n _ hn ha => hf a ha x n hn hx) (stays x hx)

theorem Takes.drop {P' : φ → Prop} {x : φ} {k : ι → Held φ α} (h : L.Takes P P' Q k) (hx : P x) :
    L.Goes aside Q fun i => Held.drop x (k i) :=
  fun m hm => (h x m hm hx).drop

theorem Takes.zoom {S S' : ψ → Prop} {part : ψ} {restore : ψ → φ → φ} {k : ι → Held ψ α}
    (h : L.Takes S S' Q k) (hpart : S part) (hrestore : ∀ p x, S' p → P x → P (restore p x)) :
    L.Holds P Q fun i => Held.zoom part restore (k i) :=
  fun x m hm hx => (h part m hm hpart).zoom fun p hp => hrestore p x hp hx

namespace Works

variable {k : ι → Held Value α} (h : L.Works base Q' k) (hm : L.Ready m) (onward : base.Onward m)
include h hm onward

theorem ofCell (c : Nat) (name : Text) (pos : Position) :
    L.At aside m (Onwards Q') fun i => Held.ofCell c name pos (k i) m := by
  cases locked : m.store.beginWrite c name pos with
  | error e =>
    have fault : e.isFault = true ∧ e ≠ .outOfFuel := by
      unfold Store.beginWrite at locked
      dsimp only at locked
      split at locked
      · cases locked
        exact ⟨rfl, by simp [Halt.cause]⟩
      · cases locked
    simp only [Held.ofCell_refused locked]
    exact .const _ rfl ⟨fun _ => rfl, allows_fault fault.1 fun eq => (fault.2 eq).elim⟩
  | ok s =>
    obtain ⟨free, rfl⟩ := Store.beginWrite_cases locked
    have lock : L.course.Leads m [.lock c] (m.lock c) :=
      .act free rfl (m.onward_inside _ m.scope m.this)
    have opened : L.Ready (m.lock c) := hm.leads lock
    have close : ∀ v n, L.plain v → L.course.Leads n [.write c v] (n.write c v) := fun v n hv =>
      .act hv rfl (n.onward_inside _ n.scope n.this)
    simp only [Held.ofCell_eq locked]
    refine Yields.after lock ((h _ _ opened (onward.trans lock.onward)
      (opened.tidy.world.cells c)).last (fun s => .write c s.1) ?_ ?_)
    · intro _ s hs
      have leads := close s.1 s.2 hs.2.1
      exact ⟨leads, fun _ => hs.1, hs.2.2.onward leads.onward⟩
    · exact fun _ s hs => ⟨close s.1 s.2 hs.2.1, fun _ => hs.1, hs.2.2⟩

theorem behind_passing (name : Text) (pos : Position) {v : Value} (hv : L.passes v) :
    L.WorksAt (fun w => w = v ∨ v.isShared = false ∧ L.plain w) m (Onwards Q')
      fun i => Held.behind name pos (k i) (v, m) := by
  have unaliased : v.isShared = false →
      L.WorksAt (fun w => w = v ∨ v.isShared = false ∧ L.plain w) m (Onwards Q') fun i => k i (v, m) := by
    intro unshared
    refine (h v m hm onward (Stock.plain_of_passes hv unshared)).mono ?_ ?_
    · exact fun _ s hs => ⟨hs.1, Or.inr ⟨unshared, hs.2.1⟩, hs.2.2⟩
    · exact fun _ s hs => ⟨hs.1, Or.inr ⟨unshared, hs.2.1⟩, hs.2.2⟩
  cases v with
  | shared c => exact At.lift (h.ofCell hm onward c name pos) (Or.inl rfl)
  | _ => exact unaliased rfl

theorem behind (name : Text) (pos : Position) {v : Value} (hv : L.plain v) :
    L.WorksAt L.plain m (Onwards Q') fun i => Held.behind name pos (k i) (v, m) := by
  refine (h.behind_passing hm onward name pos (Stock.passes_of_plain hv)).mono ?_ ?_
  · exact fun _ s hs => ⟨hs.1, hs.2.1.elim (fun same => same ▸ hv) And.right, hs.2.2⟩
  · exact fun _ s hs => ⟨hs.1, hs.2.1.elim (fun same => same ▸ hv) And.right, hs.2.2⟩

theorem onVariable {name : Text} {e : Entry}
    (found : m.scope.find? name = some e) (writable : e.isConst = false) (pos : Position) :
    L.At False m (Onwards Q') fun i => Run.onVariable name e.value (Held.behind name pos (k i)) m := by
  have value : L.passes e.value := hm.tidy.scope e (Scope.mem_of_find? found)
  have assign : ∀ (v : Value) (n : Machine), n.scope = m.scope →
      (v = e.value ∨ e.value.isShared = false ∧ L.plain v) →
      L.course.Leads n [.assign name v] { n with scope := n.scope.setValue name v } := by
    intro v n scope hv
    refine .act ⟨e, ?_, writable, hv⟩ rfl (n.onward_inside n.store _ n.this)
    change n.scope.find? name = some e
    rw [scope]
    exact found
  simp only [Run.onVariable_eq]
  refine (h.behind_passing hm onward name pos value).last (fun s => .assign name s.1) ?_ ?_
  · intro _ s hs
    have leads := assign s.1 s.2 hs.1 hs.2.1
    exact ⟨leads, False.elim, hs.2.2.onward leads.onward⟩
  · exact fun _ s hs => ⟨assign s.1 s.2 hs.1 hs.2.1, False.elim, hs.2.2⟩

theorem onThis {v : Value}
    (found : m.this = some v) (pos : Position) :
    L.At False m (Onwards Q') fun i => Run.onThis v (Held.behind Reserved.this pos (k i)) m := by
  have set : ∀ (v : Value) (n : Machine), L.plain v →
      L.course.Leads n [.setThis v] { n with this := some v } := fun v n hv =>
    .act hv rfl (n.onward_inside n.store n.scope _)
  simp only [Run.onThis_eq]
  refine (h.behind hm onward Reserved.this pos (hm.tidy.this v found)).last (fun s => .setThis s.1) ?_ ?_
  · intro _ s hs
    have leads := set s.1 s.2 hs.2.1
    exact ⟨leads, False.elim, hs.2.2.onward leads.onward⟩
  · exact fun _ s hs => ⟨set s.1 s.2 hs.2.1, False.elim, hs.2.2⟩

end Works

theorem At.now {r : ι → EStateM.Result Halt Machine α} (h : L.At aside m (Onwards Q') r) :
    L.At aside m Q' r :=
  h.mono (fun _ n hn => ⟨hn.1, hn.2 n n.onward_refl⟩) fun _ _ hn => hn

theorem At.onwards {r : ι → EStateM.Result Halt Machine α} (h : L.At aside m (fun _ => Q) r) :
    L.At aside m (Onwards fun _ => Q) r :=
  h.mono (fun _ _ hn => ⟨hn.1, fun _ _ => hn.2⟩) fun _ _ hn => hn

theorem WorksAt.now {r : ι → EStateM.Result Halt (φ × Machine) α} (h : L.WorksAt P m (Onwards Q') r) :
    L.WorksAt P m Q' r :=
  h.mono (fun _ s hs => ⟨hs.1, hs.2.1, hs.2.2 s.2 s.2.onward_refl⟩) fun _ _ hs => hs

theorem Holds.works {k : ι → Held Value α} (h : L.Holds L.plain Q k) : L.Works base (fun _ => Q) k :=
  fun v m hm _ hv => (h v m hm hv).mono (fun _ _ hs => ⟨hs.1, hs.2.1, fun _ _ => hs.2.2⟩) fun _ _ hs => hs

end Survey

end Scripting
