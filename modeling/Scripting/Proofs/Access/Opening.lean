import Scripting.Proofs.Access.Reading

/-
Opening a place to work on what it holds, without writing. The value at hand is what reading the place
gives, every alias on the way is held as the only user of its cell meanwhile, and what was only looked at
is as before.
-/
namespace Scripting

/-- A value leads to a cell: it is an alias of it, or it holds one or stands for one, at any depth. -/
inductive Value.Reaches (s : Store) : Value → Nat → Prop where
  | self {c : Nat} : Reaches s (.shared c) c
  | behind {c d : Nat} : Reaches s (s.cell c).value d → Reaches s (.shared c) d
  | item {items : List Value} {v : Value} {d : Nat} : v ∈ items → Reaches s v d →
    Reaches s (.array items) d
  | entry {entries : List (Text × Value)} {e : Text × Value} {d : Nat} : e ∈ entries →
    Reaches s e.2 d → Reaches s (.map entries) d

def Store.Acyclic (s : Store) : Prop := ∀ c, ¬ (s.cell c).value.Reaches s c

theorem Value.Flat.reaches_none {s : Store} {v : Value} (h : v.Flat) (c : Nat) : ¬ v.Reaches s c := by
  intro reaches
  induction reaches with
  | self => exact absurd h.own (by simp [Value.isShared])
  | behind => exact absurd h.own (by simp [Value.isShared])
  | item mem _ ih =>
    cases h with
    | array items => exact ih (items _ mem)
    | other _ noArray => exact noArray _ rfl
  | entry mem _ ih =>
    cases h with
    | map entries => exact ih (entries _ mem)
    | other _ _ noMap => exact noMap _ rfl

theorem Store.Flat.acyclic {s : Store} (flat : s.Flat) : s.Acyclic := fun c => (flat c).reaches_none c

/-- The machine in which a value of another one is at hand: it has the same values, and the cells that
the value leads to are not in use. -/
structure Machine.Lends (m : Machine) (v : Value) (n : Machine) : Prop where
  values : ∀ c, (n.store.cell c).value = (m.store.cell c).value
  free : ∀ c, v.Reaches m.store c → (n.store.cell c).lock = (0, false)

/-- Work has given this, or has failed with an error. It has only counted operations and has left the
held value alone, but that a map which was not in the order of its keys may be in order now. -/
def Shows {α : Type} (v : Value) (n : Machine) : Option α → EStateM.Result Halt Holding α → Prop
  | some a, out => ∃ w o, out = .ok a (w, o) ∧ (v.InOrder → w = v) ∧ n.Counted o
  | none, out => ∃ e w o, out = .error (.error e) (w, o) ∧ (v.InOrder → w = v) ∧ n.Counted o

/-- Wherever this value is at hand, work on it has this outcome. -/
def Reads {α : Type} (m : Machine) (v : Value) (k : Held Value α) (r : Option α) : Prop :=
  ∀ n, m.Lends v n → Shows v n r (k (v, n))

namespace Machine.Lends

variable {m n : Machine} {v : Value}

theorem of_free (free : m.store.Free) (counted : m.Counted n) : m.Lends v n :=
  ⟨fun c => by rw [counted.store], fun c _ => counted.store ▸ free c⟩

theorem shallow (h : m.Lends v n) (shallow : m.store.Shallow) : n.store.Shallow := by
  intro c
  rw [h.values c]
  exact shallow c

theorem part {part : Value} {k : Key} (h : m.Lends v n) (into : k.Into v part) : m.Lends part n := by
  refine ⟨h.values, fun c reaches => h.free c ?_⟩
  cases into with
  | item _ there => exact .item (List.mem_of_getElem? there) reaches
  | char => cases reaches
  | @entry name entries =>
    cases found : Dict.find? name entries with
    | none =>
      rw [found] at reaches
      cases reaches
    | some w =>
      rw [found] at reaches
      exact .entry (Dict.mem_of_find? found) reaches

theorem content {c : Nat} (h : m.Lends (.shared c) n) (acyclic : m.store.Acyclic) :
    m.Lends (m.store.cell c).value
      (n.withStore (n.store.put c ⟨(m.store.cell c).value, 0, true⟩)) := by
  refine ⟨fun d => ?_, fun d reaches => ?_⟩
  · change ((n.store.put c ⟨(m.store.cell c).value, 0, true⟩).cell d).value = _
    by_cases same : d = c
    · subst same
      by_cases inside : d < n.store.size
      · rw [Store.cell_put_self inside]
      · rw [Store.put_of_size_le (by omega), h.values]
    · rw [Store.cell_put_of_ne same, h.values]
  · have other : d ≠ c := fun same => acyclic c (same ▸ reaches)
    change ((n.store.put c ⟨(m.store.cell c).value, 0, true⟩).cell d).lock = _
    rw [Store.cell_put_of_ne other]
    exact h.free d (.behind reaches)

end Machine.Lends

theorem Machine.Counted.give_back {n o : Machine} {c : Nat} {v : Value}
    (cell : n.store.cell c = ⟨v, 0, false⟩)
    (counted : (n.withStore (n.store.put c ⟨v, 0, true⟩)).Counted o) :
    n.Counted (o.withStore ((o.store.setValue c v).endWrite c)) := by
  obtain ⟨operations, progress, rfl⟩ := counted
  refine ⟨operations, progress, ?_⟩
  have back : (((n.store.put c ⟨v, 0, true⟩).setValue c v).endWrite c) = n.store :=
    Store.give_back cell
  simp only [Machine.withStore, Machine.store] at back ⊢
  rw [back]

theorem Refuses.behind {α : Type} {n : Machine} {c : Nat} {v : Value} {k : Held Value α} {name : Text}
    {pos : Position} (cell : n.store.cell c = ⟨v, 0, false⟩)
    (h : Refuses k (v, n.withStore (n.store.put c ⟨v, 0, true⟩))) :
    Refuses (Held.behind name pos k) (.shared c, n) := by
  obtain ⟨e, failed⟩ := h
  have back : ((n.store.put c ⟨v, 0, true⟩).setValue c v).endWrite c = n.store := Store.give_back cell
  refine ⟨e, ?_⟩
  rw [Held.behind_free cell, failed]
  simp only [Machine.withStore, Machine.store] at back ⊢
  rw [back]

namespace Reads

variable {α : Type} {m : Machine} {k : Held Value α} {r : Option α}

theorem refuse {v : Value} (h : ∀ n, m.Lends v n → Refuses k (v, n)) : Reads m v k none := by
  intro n lends
  obtain ⟨e, failed⟩ := h n lends
  exact ⟨e, v, n, failed, fun _ => rfl, .refl n⟩

theorem behind (free : m.store.Free) (acyclic : m.store.Acyclic)
    (ordered : ∀ c, (m.store.cell c).value.InOrder) {v : Value}
    (h : ∀ w, v.behind? m.store = some w → Reads m w k r) (name : Text) (pos : Position) :
    Reads m v (Held.behind name pos k) r := by
  intro n lends
  cases own : v.isShared with
  | false =>
    rw [Held.behind_plain own]
    exact h v (Value.behind?_of_own own m.store) n lends
  | true =>
    cases v with
    | shared c =>
      have unlocked : (m.store.cell c).writer = false := congrArg Prod.snd (free c)
      have content : (Value.shared c).behind? m.store = some (m.store.cell c).value :=
        if_neg (by simp [unlocked])
      have cell : n.store.cell c = ⟨(m.store.cell c).value, 0, false⟩ := by
        have unused := lends.free c .self
        rw [← lends.values c]
        cases there : n.store.cell c
        rw [there] at unused
        cases unused
        rfl
      rw [Held.behind_free cell]
      have outcome := h _ content _ (lends.content acyclic)
      cases r with
      | some a =>
        obtain ⟨w, o, ran, same, later⟩ := outcome
        rw [same (ordered c)] at ran
        exact ⟨_, _, by rw [ran], fun _ => rfl, .give_back cell later⟩
      | none =>
        obtain ⟨e, w, o, failed, same, later⟩ := outcome
        rw [same (ordered c)] at failed
        exact ⟨e, _, _, by rw [failed], fun _ => rfl, .give_back cell later⟩
    | _ => cases own

theorem zoom {v part : Value} {restore : Value → Value → Value}
    (lent : ∀ n, m.Lends v n → m.Lends part n)
    (back : v.InOrder → part.InOrder ∧ restore part v = v) (h : Reads m part k r) :
    Reads m v (Held.zoom part restore k) r := by
  intro n lends
  have outcome := h n (lent n lends)
  have kept (w : Value) (same : part.InOrder → w = part) (ordered : v.InOrder) : restore w v = v := by
    rw [same (back ordered).1, (back ordered).2]
  cases r with
  | some a =>
    obtain ⟨w, o, ran, same, counted⟩ := outcome
    exact ⟨_, o, Held.zoom_of_ok ran _ _, kept w same, counted⟩
  | none =>
    obtain ⟨e, w, o, failed, same, counted⟩ := outcome
    exact ⟨e, _, o, Held.zoom_of_error failed _ _, kept w same, counted⟩

theorem aside {v part : Value} (lent : ∀ n, m.Lends v n → m.Lends part n) (h : Reads m part k r) :
    Reads m v (Held.lift (Held.drop part k)) r := by
  intro n lends
  have outcome := h n (lent n lends)
  cases r with
  | some a =>
    obtain ⟨w, o, ran, -, counted⟩ := outcome
    exact ⟨v, o, Held.lift_of_ok (Held.drop_of_ok ran) v, fun _ => rfl, counted⟩
  | none =>
    obtain ⟨e, w, o, failed, -, counted⟩ := outcome
    exact ⟨e, v, o, Held.lift_of_error (Held.drop_of_error failed) v, fun _ => rfl, counted⟩

theorem held {v : Value} {f : Value → Held Value α} (h : Reads m v (f v) r) :
    Reads m v (Held.held >>= f) r := fun n lends => h n lends

theorem lift {β : Type} {v : Value} {look : Run β} {b : β} {f : β → Held Value α}
    (known : ∀ n, look n = .ok b n) (h : Reads m v (f b) r) :
    Reads m v (Held.lift look >>= f) r := by
  intro n lends
  rw [bind_of_ok (Held.lift_of_ok (known n) v)]
  exact h n lends

section
variable {engine : Engine} {ev : Evaluator}

theorem atChar {t : Text} {c : Integer} {found : Text × CodePoint × Text}
    (there : Key.character? c t = some found) (h : Reads m (.char found.2.1) k r) (pos : Position) :
    Reads m (.string t) (Eval.atChar engine ev t (.i64 c) false pos k) r := by
  intro n lends
  have outcome := h n (lends.part (.char there))
  have located := Held.lift_of_ok (Eval.locateChar_char ev there pos n) (Value.string t)
  obtain ⟨front, c, tail⟩ := found
  unfold Eval.atChar
  rw [bind_of_ok located]
  cases r with
  | some a =>
    obtain ⟨w, o, ran, -, counted⟩ := outcome
    have inner : (do return (← k, ← Held.held) : Held Value (α × Value)) (.char c, n) =
        .ok (a, w) (w, o) := by
      rw [bind_of_ok ran]
      rfl
    refine ⟨_, o, ?_, fun _ => rfl, counted⟩
    dsimp only
    rw [bind_of_ok (Held.lift_of_ok (Held.drop_of_ok inner) _)]
    rfl
  | none =>
    obtain ⟨e, w, o, failed, -, counted⟩ := outcome
    have inner := bind_of_error failed fun a => do return (a, ← Held.held)
    refine ⟨e, _, o, ?_, fun _ => rfl, counted⟩
    dsimp only
    rw [bind_of_error (Held.lift_of_error (Held.drop_of_error inner) _)]

section
variable (free : m.store.Free) (acyclic : m.store.Acyclic)
  (ordered : ∀ c, (m.store.cell c).value.InOrder)
include free acyclic ordered

theorem atKey {entries : List (Text × Value)} {name : Text}
    (h : ∀ w, ((Dict.find? name entries).getD .unit).behind? m.store = some w → Reads m w k r)
    (pos : Position) :
    Reads m (.map entries) (Eval.atKey entries name false pos k) r := by
  have lent (n : Machine) (lends : m.Lends (.map entries) n) :
      m.Lends ((Dict.find? name entries).getD .unit) n := lends.part .entry
  unfold Eval.atKey
  cases found : Dict.find? name entries with
  | none =>
    rw [found] at h lent
    exact aside lent (h _ rfl)
  | some v =>
    rw [found] at h lent
    refine zoom lent (fun inOrder => ⟨inOrder.entry found, ?_⟩) (behind free acyclic ordered h name pos)
    rw [inOrder.entries.insert_self found]

theorem atIndex {v index part : Value} {key : Key} (known : index.key? = some key)
    (sees : key.sees v = some part) (h : ∀ w, part.behind? m.store = some w → Reads m w k r)
    (pos : Position) : Reads m v (Eval.atIndex engine ev index false pos k) r := by
  refine .held ?_
  cases Key.into_of_sees sees with
  | @item c items _ start there =>
    rw [Value.eq_of_key?_item known]
    refine .lift (Eval.arrayIndex_item ev start there pos) ?_
    rw [there]
    refine .zoom (fun n lends => lends.part (.item start there)) (fun inOrder => ?_)
      (behind free acyclic ordered h [] pos)
    obtain ⟨inside, rfl⟩ := List.getElem?_eq_some_iff.mp there
    exact ⟨inOrder.item (List.getElem_mem inside), by simp⟩
  | char there =>
    rw [Value.eq_of_key?_item known]
    exact atChar there (h _ rfl) pos
  | @entry name entries =>
    rw [Value.eq_of_key?_entry known]
    exact .lift (b := name) (fun _ => rfl) (atKey free acyclic ordered h pos)

theorem atProperty {v part : Value} {name : Text} (sees : (Key.entry name).sees v = some part)
    (h : ∀ w, part.behind? m.store = some w → Reads m w k r) (pos : Position) :
    Reads m v (Eval.atProperty engine ev name false pos k) r := by
  refine .held ?_
  cases Key.into_of_sees sees with
  | entry => exact atKey free acyclic ordered h pos

end

section
variable (fuel : 2 ≤ ev.fuel) (shallow : m.store.Shallow)
include fuel shallow

theorem atIndex_none (core : engine.OnCore) {v index : Value}
    (nowhere : (index.key?.bind fun k => k.sees v) = none) (pos : Position) :
    Reads m v (Eval.atIndex engine ev index false pos k) none := by
  refine .held (.refuse fun n lends => ?_)
  have shallow := lends.shallow shallow
  cases v with
  | array items => exact ((Eval.arrayIndex_refuses fuel shallow nowhere pos).lift _).bind _
  | map entries => exact ((Eval.mapKey_refuses fuel shallow nowhere pos).lift _).bind _
  | string t => exact ((Eval.locateChar_refuses fuel shallow nowhere pos).lift _).bind _
  | _ =>
    have unserved := core.unserved (Package.overloads_of_dollar Package.dollar_mem_index.1)
    rcases Eval.tryMethod_nothing fuel shallow (fun types => unserved types true) _ [index] pos with
      nothing | refused
    · refine .bind_ok nothing (.bind_ok (a := _) rfl ?_)
      rcases Eval.typeOf_known fuel shallow _ with ⟨t, known⟩ | refused
      · exact .bind_ok (Held.lift_of_ok known _) ⟨_, rfl⟩
      · exact (refused.lift _).bind _
    · exact refused.bind _

theorem atProperty_none (core : engine.OnCore) {v : Value} {name : Text}
    (nowhere : (Key.entry name).sees v = none) (pos : Position) :
    Reads m v (Eval.atProperty engine ev name false pos k) none := by
  refine .held (.refuse fun n lends => ?_)
  have shallow := lends.shallow shallow
  cases v with
  | map entries => cases nowhere
  | _ =>
    have unserved := core.unserved (Package.overloads_of_dollar (Package.dollar_mem_getter name))
    rcases Eval.tryMethod_nothing fuel shallow (fun types => unserved types true) _ [] pos with
      nothing | refused
    · refine .bind_ok nothing (.bind_ok (a := _) rfl ?_)
      exact (Eval.notFound_refuses fuel shallow _ _ pos).lift _
    · exact refused.bind _

end

end

end Reads

/-- Where no cell is in use every alias shows what it stands for. -/
theorem Store.Free.behind? {s : Store} (free : s.Free) (v : Value) : ∃ w, v.behind? s = some w := by
  cases v with
  | shared c =>
    have unlocked : (s.cell c).writer = false := congrArg Prod.snd (free c)
    exact ⟨(s.cell c).value, if_neg (by simp [unlocked])⟩
  | _ => exact ⟨_, rfl⟩

namespace Eval

section
variable {α : Type} {m n : Machine} {v : Value} {k : Held Value α} {r : Option α}

theorem Comes.drop (free : m.store.Free) (h : Reads m v k r) (counted : m.Counted n) :
    Comes m r (Held.drop v k n) := by
  have outcome := h n (.of_free free counted)
  cases r with
  | some a =>
    obtain ⟨w, o, ran, -, later⟩ := outcome
    exact ⟨o, Held.drop_of_ok ran, counted.trans later⟩
  | none =>
    obtain ⟨e, w, o, failed, -, later⟩ := outcome
    exact ⟨e, o, Held.drop_of_error failed, counted.trans later⟩

theorem Comes.ofMachine {restore : Value → Machine → Machine} (free : m.store.Free)
    (h : Reads m v k r) (ordered : v.InOrder) (back : ∀ o, m.Counted o → m.Counted (restore v o))
    (counted : m.Counted n) : Comes m r (Held.ofMachine v restore k n) := by
  have outcome := h n (.of_free free counted)
  cases r with
  | some a =>
    obtain ⟨w, o, ran, same, later⟩ := outcome
    rw [same ordered] at ran
    exact ⟨_, Held.ofMachine_of_ok ran restore, back o (counted.trans later)⟩
  | none =>
    obtain ⟨e, w, o, failed, same, later⟩ := outcome
    rw [same ordered] at failed
    exact ⟨e, _, Held.ofMachine_of_error failed restore, back o (counted.trans later)⟩

end

/-- What opening a place comes to: its value is at hand, or it fails whatever the work is. -/
def Opens (engine : Engine) (ev : Evaluator) (m : Machine) (e : Expr) : Option Value → Prop
  | some v => ∀ (α : Type) (k : Held Value α) r, Reads m v k r → ∀ n, m.Counted n →
    Comes m r (access engine ev e false k n)
  | none => ∀ (α : Type) (k : Held Value α) n, m.Counted n → Comes m none (access engine ev e false k n)

section
variable {engine : Engine} {ev : Evaluator} {m : Machine}

theorem variable_opens (fuel : 2 ≤ ev.fuel) (free : m.store.Free)
    (shallow : m.store.Shallow) (acyclic : m.store.Acyclic) (ordered : m.InOrder) (pos : Position) (name : Text) :
    Opens engine ev m (.var pos name []) (m.start? (.variable name)) := by
  have eq (α : Type) (k : Held Value α) (n : Machine) :
      access engine ev (.var pos name []) false k n = atVariable ev name false pos k n := rfl
  rw [Machine.start?]
  cases found : m.scope.find? name with
  | none =>
    intro α k n counted
    exact .refuse counted (atVariable_missing (counted.scope ▸ found) false pos)
  | some e =>
    obtain ⟨w, shown⟩ := free.behind? e.value
    rw [Option.bind_some, shown]
    intro α k r h n counted
    rw [eq, atVariable_found (counted.scope ▸ found)]
    split
    · exact (shown ▸ flatten_comes fuel shallow counted e.value).bind fun o counted =>
        .drop free h counted
    · have inOrder := ordered.scope e (Scope.mem_of_find? found)
      refine .ofMachine free (.behind free acyclic ordered.cells (fun x same => ?_) name pos) inOrder
        (fun o later => ?_) counted
      · cases shown.symm.trans same
        exact h
      · obtain ⟨operations, progress, rfl⟩ := later
        exact ⟨operations, progress, by simp [Scope.setValue_self found]⟩

theorem qualified_opens (free : m.store.Free) (pos : Position) (name : Text) (first : Text) (rest : List Text) :
    Opens engine ev m (.var pos name (first :: rest)) (m.start? (.qualified (first :: rest) name)) := by
  have eq (α : Type) (k : Held Value α) (n : Machine) :
      access engine ev (.var pos name (first :: rest)) false k n =
        (readVariable ev pos name (first :: rest) >>= fun v => Held.drop v k) n := rfl
  have known {n : Machine} (counted : m.Counted n) :=
    readQualified_comes ev counted pos name first rest
  cases value : m.start? (.qualified (first :: rest) name) with
  | none =>
    intro α k n counted
    rw [eq]
    exact (value ▸ known counted).bind_none
  | some v =>
    intro α k r h n counted
    rw [eq]
    exact (value ▸ known counted).bind fun o counted => .drop free h counted

theorem this_opens (free : m.store.Free) (acyclic : m.store.Acyclic) (ordered : m.InOrder)
    (pos : Position) : Opens engine ev m (.this pos) (m.start? .this) := by
  rw [Machine.start?]
  cases found : m.this with
  | none =>
    intro α k n counted
    rw [access_this, counted.this, found]
    exact .refuse counted (.fail _ pos n)
  | some v =>
    obtain ⟨w, shown⟩ := free.behind? v
    rw [Option.bind_some, shown]
    intro α k r h n counted
    rw [access_this, counted.this, found]
    refine .ofMachine free (.behind free acyclic ordered.cells (fun x same => ?_) _ pos)
      (ordered.this v found) (fun o later => ?_) counted
    · cases shown.symm.trans same
      exact h
    · obtain ⟨operations, progress, rfl⟩ := later
      exact ⟨operations, progress, by simp [found]⟩

theorem index_opens (fuel : 2 ≤ ev.fuel) (core : engine.OnCore) (free : m.store.Free)
    (shallow : m.store.Shallow) (acyclic : m.store.Acyclic) (ordered : m.InOrder) {object i : Expr}
    (opened : Opens engine ev m object (object.look m))
    (position : ∀ n, m.Counted n → Comes m (i.operand? m) (ev.eval i n)) (pos : Position) :
    Opens engine ev m (.index pos object i) ((Expr.index pos object i).look m) := by
  have eq (α : Type) (k : Held Value α) (n : Machine) :
      access engine ev (.index pos object i) false k n =
        (ev.eval i >>= fun i => access engine ev object false (atIndex engine ev i false pos k)) n := rfl
  rw [Expr.look_index]
  cases held : object.look m with
  | none =>
    rw [held] at opened
    intro α k n counted
    rw [eq]
    cases value : i.operand? m with
    | none => exact (value ▸ position n counted).bind_none
    | some w => exact (value ▸ position n counted).bind fun o counted => opened α _ o counted
  | some v =>
    rw [held] at opened
    cases value : i.operand? m with
    | none =>
      intro α k n counted
      rw [eq]
      exact (value ▸ position n counted).bind_none
    | some w =>
      have index {n : Machine} (counted : m.Counted n) := value ▸ position n counted
      simp only [Option.bind_some]
      cases sees : w.key?.bind fun k => k.sees v with
      | none =>
        intro α k n counted
        rw [eq]
        exact (index counted).bind fun o counted =>
          opened α _ none (.atIndex_none fuel shallow core sees pos) o counted
      | some part =>
        obtain ⟨key, known, sees⟩ := Option.bind_eq_some_iff.mp sees
        obtain ⟨x, shown⟩ := free.behind? part
        rw [Option.bind_some, shown]
        intro α k r h n counted
        rw [eq]
        refine (index counted).bind fun o counted => opened α _ r
          (.atIndex free acyclic ordered.cells known sees (fun y same => ?_) pos) o counted
        cases shown.symm.trans same
        exact h

theorem property_opens (fuel : 2 ≤ ev.fuel) (core : engine.OnCore) (free : m.store.Free)
    (shallow : m.store.Shallow) (acyclic : m.store.Acyclic) (ordered : m.InOrder) {object : Expr}
    (opened : Opens engine ev m object (object.look m)) (pos : Position) (name : Text) :
    Opens engine ev m (.property pos object name) ((Expr.property pos object name).look m) := by
  have eq (α : Type) (k : Held Value α) (n : Machine) :
      access engine ev (.property pos object name) false k n =
        access engine ev object false (atProperty engine ev name false pos k) n := rfl
  rw [Expr.look_property]
  cases held : object.look m with
  | none =>
    rw [held] at opened
    intro α k n counted
    rw [eq]
    exact opened α _ n counted
  | some v =>
    rw [held] at opened
    rw [Option.bind_some]
    cases sees : (Key.entry name).sees v with
    | none =>
      intro α k n counted
      rw [eq]
      exact opened α _ none (.atProperty_none fuel shallow core sees pos) n counted
    | some part =>
      obtain ⟨x, shown⟩ := free.behind? part
      rw [Option.bind_some, shown]
      intro α k r h n counted
      rw [eq]
      refine opened α _ r
        (.atProperty free acyclic ordered.cells sees (fun y same => ?_) pos) n counted
      cases shown.symm.trans same
      exact h

end

section
variable {engine : Engine} {m : Machine} (core : engine.OnCore) (unstopped : engine.Unstopped)
  (free : m.store.Free) (shallow : m.store.Shallow) (acyclic : m.store.Acyclic) (ordered : m.InOrder)
include core unstopped free shallow acyclic ordered

theorem place_opens {e : Expr} (place : e.IsPlace) :
    Enough fun fuel => Opens engine (evaluator engine fuel) m e (e.look m) := by
  have two : Enough fun fuel => 2 ≤ fuel := ⟨2, fun _ enough => enough⟩
  induction place with
  | @var pos name path =>
    cases path with
    | nil => exact two.imp fun fuel enough => variable_opens enough free shallow acyclic ordered pos name
    | cons first rest => exact .always fun fuel => qualified_opens free pos name first rest
  | @this pos => exact .always fun fuel => this_opens free acyclic ordered pos
  | @index pos object i _ operand ih =>
    refine ((ih.and (operand_comesTo unstopped shallow operand)).and two).imp fun fuel both => ?_
    obtain ⟨⟨opened, position⟩, enough⟩ := both
    exact index_opens enough core free shallow acyclic ordered opened position pos
  | @property pos object name _ ih =>
    refine (ih.and two).imp fun fuel both => ?_
    exact property_opens both.2 core free shallow acyclic ordered both.1 pos name

end

end Eval

open Eval in
/-- Opening a place shows the value that reading it gives, and both fail if the place holds nothing.
Neither changes anything but the counts of operations. -/
theorem opening_shows_the_value_read {engine : Engine} {m : Machine} {p : Expr} (core : engine.OnCore)
    (unstopped : engine.Unstopped) (free : m.store.Free) (shallow : m.store.Shallow)
    (acyclic : m.store.Acyclic) (ordered : m.InOrder) (place : p.IsPlace) :
    ComesTo engine m p (p.look m) ∧
      Enough fun fuel => Opens engine (evaluator engine fuel) m p (p.look m) ∧
        ∀ n, m.Counted n →
          Comes m (p.look m) (access engine (evaluator engine fuel) p false Held.held n) := by
  refine ⟨place_comesTo core unstopped shallow place, ?_⟩
  refine (place_opens core unstopped free shallow acyclic ordered place).imp fun fuel opens => ⟨opens, ?_⟩
  cases holds : p.look m with
  | none => exact fun n => (holds ▸ opens) Value Held.held n
  | some v =>
    exact (holds ▸ opens) Value Held.held (some v) fun n lends => ⟨v, n, rfl, fun _ => rfl, .refl n⟩

/-- Cells that nobody uses, and `x` as an alias of the first one beside `i` with the number zero. -/
def aliasMachine (store : Store) : Machine where
  world := { store }
  scope := [{ name := Text.lit "x", value := .shared 0 },
    { name := Text.lit "i", value := .i64 (Integer.ofNat 0) }]
  library := {}
  root := {}

def justSeven : Value := .array [.i64 (Integer.ofNat 7)]

def sevenUnderA : Value := .map [(Text.lit "a", justSeven)]

theorem sevenUnderA_flat : sevenUnderA.Flat := by
  refine .map fun e mem => ?_
  rw [List.mem_singleton.mp mem]
  refine .array fun v mem => ?_
  rw [List.mem_singleton.mp mem]
  exact .other rfl (by simp) (by simp)

theorem justSeven_inOrder : justSeven.InOrder := by
  refine .array fun v mem => ?_
  rw [List.mem_singleton.mp mem]
  exact .other (by simp) (by simp)

theorem sevenUnderA_inOrder : sevenUnderA.InOrder := by
  refine .map (by simp [Dict.Ordered]) fun e mem => ?_
  rw [List.mem_singleton.mp mem]
  exact justSeven_inOrder

theorem Store.forall_cell {P : Cell → Prop} {cells : List Cell} (there : ∀ cell ∈ cells, P cell)
    (absent : P default) (c : Nat) : P (Store.cell ⟨cells.toArray⟩ c) := by
  simp only [Store.cell, List.getElem?_toArray]
  cases found : cells[c]? with
  | none => exact absent
  | some cell => exact there cell (List.mem_of_getElem? found)

theorem aliasMachine_inOrder {store : Store} (cells : ∀ c, (store.cell c).value.InOrder) :
    (aliasMachine store).InOrder where
  scope e mem := by
    rcases List.mem_cons.mp mem with rfl | mem
    · exact .other (by simp) (by simp)
    · rw [List.mem_singleton.mp mem]
      exact .other (by simp) (by simp)
  cells := cells
  this v none := by cases none

/-- The place `x.a[i]`. -/
def itemUnderA : Expr :=
  .index .nowhere (.property .nowhere (.var .nowhere (Text.lit "x") []) (Text.lit "a"))
    (.var .nowhere (Text.lit "i") [])

def aliasOfMap : Machine := aliasMachine ⟨#[{ value := sevenUnderA }]⟩

theorem opening_shows_item_behind_alias :
    Eval.ComesTo .standard aliasOfMap itemUnderA (some (.i64 (Integer.ofNat 7))) ∧
      Enough fun fuel => ∀ n, aliasOfMap.Counted n →
        Eval.Comes aliasOfMap (some (.i64 (Integer.ofNat 7)))
          (Eval.access .standard (Eval.evaluator .standard fuel) itemUnderA false Held.held n) := by
  have holds : itemUnderA.look aliasOfMap = some (.i64 (Integer.ofNat 7)) := by rfl
  have free : aliasOfMap.store.Free := Store.forall_cell (P := fun cell => cell.lock = (0, false))
    (by simp [Cell.lock]) rfl
  have flat : aliasOfMap.store.Flat := Store.forall_cell (P := fun cell => cell.value.Flat)
    (by simp [sevenUnderA_flat]) (.other rfl (by simp) (by simp))
  have inOrder : aliasOfMap.InOrder := aliasMachine_inOrder (Store.forall_cell
    (P := fun cell => cell.value.InOrder) (by simp [sevenUnderA_inOrder]) (.other (by simp) (by simp)))
  have place : itemUnderA.IsPlace := .index (.property .var) .var
  obtain ⟨read, opened⟩ := opening_shows_the_value_read (⟨rfl, rfl⟩ : Engine.standard.OnCore)
    ⟨rfl, fun _ none => by cases none⟩ free flat.shallow flat.acyclic inOrder place
  rw [holds] at read opened
  exact ⟨read, opened.imp fun fuel both => both.2⟩

def aliasOfAlias : Machine := aliasMachine ⟨#[{ value := .shared 1 }, { value := justSeven }]⟩

/-- The place `x[i]`. -/
def itemOfX : Expr :=
  .index .nowhere (.var .nowhere (Text.lit "x") []) (.var .nowhere (Text.lit "i") [])

/-- An item of `x` is read through an alias in the cell that `x` stands for, but opening stops there. -/
theorem alias_in_cell_is_not_opened :
    aliasOfAlias.store.Free ∧ aliasOfAlias.InOrder ∧ itemOfX.IsPlace ∧ ∀ fuel,
      (∃ n, Eval.evalAt .standard (fuel + 10) itemOfX aliasOfAlias =
        .ok (.i64 (Integer.ofNat 7)) n) ∧
      ∃ e n, Eval.access .standard (Eval.evaluator .standard (fuel + 10)) itemOfX false Held.held
        aliasOfAlias = .error (.error e) n := by
  have other : (Value.shared 1).InOrder := .other (by simp) (by simp)
  have free : aliasOfAlias.store.Free := Store.forall_cell (P := fun cell => cell.lock = (0, false))
    (by simp [Cell.lock]) rfl
  have inOrder : aliasOfAlias.InOrder := aliasMachine_inOrder (Store.forall_cell
    (P := fun cell => cell.value.InOrder) (by simp [justSeven_inOrder, other]) (.other (by simp) (by simp)))
  refine ⟨free, inOrder, .index .var .var, fun fuel => ⟨⟨_, rfl⟩, ?_⟩⟩
  let ev := Eval.evaluator .standard (fuel + 10)
  let zero := Value.i64 (Integer.ofNat 0)
  let begun : Machine := { aliasOfAlias with operations := 1 }
  have unserved := Engine.OnCore.unserved (⟨rfl, rfl⟩ : Engine.standard.OnCore)
    (Package.overloads_of_dollar Package.dollar_mem_index.1)
  have index : Eval.evalAt .standard (fuel + 10) (.var .nowhere (Text.lit "i") []) aliasOfAlias =
      .ok zero begun := rfl
  have stopped : Refuses (Held.behind (Text.lit "x") .nowhere
      (Eval.atIndex .standard ev zero false .nowhere Held.held)) (.shared 0, begun) := by
    let taken := begun.withStore (begun.store.put 0 ⟨.shared 1, 0, true⟩)
    have nothing : Eval.tryMethod .standard ev Package.indexGetter [zero] .nowhere (.shared 1, taken) =
        .ok none (.shared 1, taken) := Eval.tryMethod_untyped (by rfl) (unserved _ true) .nowhere
    exact .behind (v := .shared 1) rfl (.bind_ok (a := .shared 1) rfl (.bind_ok nothing ⟨_, rfl⟩))
  obtain ⟨e, failed⟩ := stopped
  have opened : Eval.access .standard ev itemOfX false Held.held aliasOfAlias =
      Eval.atVariable ev (Text.lit "x") false .nowhere
        (Eval.atIndex .standard ev zero false .nowhere Held.held) begun := bind_of_ok index _
  rw [Eval.atVariable_found (e := { name := Text.lit "x", value := .shared 0 }) rfl,
    if_neg Bool.false_ne_true, Run.onVariable, Held.ofMachine_of_error failed] at opened
  exact ⟨e, _, opened⟩

end Scripting
