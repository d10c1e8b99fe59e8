import Scripting.Proofs.Access.Reading

/-
Writing to a place. How it ends depends on the work that is done there only by what the work does to the
value that reading the place gives: works that end alike on this value end alike on the place.
-/
namespace Scripting

def Fails {σ α : Type} (r : EStateM.Result Halt σ α) : Prop := ∀ a s, r ≠ .ok a s

namespace Fails

variable {σ α β : Type} {s : σ}

theorem error (h : Halt) (s : σ) : Fails (.error h s : EStateM.Result Halt σ α) := nofun

theorem bind {k : EStateM Halt σ α} {f : α → EStateM Halt σ β}
    (h : ∀ a t, k s = .ok a t → Fails (f a t)) : Fails ((k >>= f) s) := by
  cases ran : k s with
  | ok a t =>
    rw [bind_of_ok ran]
    exact h a t ran
  | error e t =>
    rw [bind_of_error ran]
    exact .error e t

theorem first {k : EStateM Halt σ α} (h : Fails (k s)) (f : α → EStateM Halt σ β) :
    Fails ((k >>= f) s) := .bind fun a t ran => absurd ran (h a t)

theorem map {k : EStateM Halt σ α} (h : Fails (k s)) (f : α → β) : Fails ((f <$> k) s) := by
  cases ran : k s with
  | ok a t => exact absurd ran (h a t)
  | error e t =>
    rw [map_of_error ran]
    exact .error e t

theorem inState {τ : Type} {r : EStateM.Result Halt σ α} (h : Fails r) (f : σ → τ) :
    Fails (inState f r) := by
  cases r with
  | ok a t => exact absurd rfl (h a t)
  | error e t => exact .error e (f t)

section
variable {φ ψ : Type} {m : Machine}

theorem lift {k : Run α} (h : Fails (k m)) (x : φ) : Fails (Held.lift k (x, m)) := by
  rw [Held.lift_eq]
  exact h.inState _

theorem drop {x : φ} {k : Held φ α} (h : Fails (k (x, m))) : Fails (Held.drop x k m) := by
  rw [Held.drop_eq]
  exact h.inState _

theorem zoom {part : ψ} {k : Held ψ α} (h : Fails (k (part, m))) (restore : ψ → φ → φ) (x : φ) :
    Fails (Held.zoom part restore k (x, m)) := by
  rw [Held.zoom_eq]
  exact h.inState _

end

end Fails

theorem Refuses.fails {σ α : Type} {k : EStateM Halt σ α} {s : σ} (h : Refuses k s) : Fails (k s) := by
  obtain ⟨e, failed⟩ := h
  rw [failed]
  exact .error _ s

theorem Still.fails {α : Type} {k : Run α} (h : Still (fun _ => False) k) (m : Machine) :
    Fails (k m) := by
  intro a n ran
  have ends := h m
  rw [ran] at ends
  exact ends.2

theorem Eval.Comes.fails {α : Type} {m : Machine} {r : EStateM.Result Halt Machine α}
    (h : Eval.Comes m none r) : Fails r := by
  obtain ⟨e, o, rfl, -⟩ := h
  exact .error _ o

theorem Eval.atAccessors_fails {α : Type} {engine : Engine} {ev : Evaluator} {getName setName : Text}
    (unserved : ∀ name ∈ [getName, setName], ∀ types, engine.native? name types true = none)
    (index : List Value) (missing k : Held Value α) (pos : Position) (s : Holding) :
    Fails (atAccessors engine ev getName setName index missing true pos k s) := by
  have nothing (name : Text) (mem : name ∈ [getName, setName]) {args : List Value} {s t : Holding}
      {r : Option Value} (ran : tryMethod engine ev name args pos s = .ok r t) : r = none := by
    have ends : Ends _ _ (tryMethod engine ev name args pos s) :=
      tryMethod_unserved (unserved name mem) s
    rw [ran] at ends
    exact ends.1
  refine .bind fun found t got => ?_
  rw [nothing getName (by simp) got]
  refine .bind fun result u _ => .bind fun written w set => ?_
  rw [nothing setName (by simp) set]
  refine .bind fun x y _ => ?_
  exact ((notFound_still engine ev setName _ pos).fails y.2).lift y.1

/-- Two computations end alike: neither succeeds, or both do, which they may only if `may` says so, with
the same value and related states. -/
def Alike {σ α : Type} (related : σ → σ → Prop) (may : Prop) (x y : EStateM.Result Halt σ α) : Prop :=
  (Fails x ∧ Fails y) ∨ may ∧ ∃ a s t, x = .ok a s ∧ y = .ok a t ∧ related s t

def SameHeld {φ : Type} (s t : φ × Machine) : Prop := t.1 = s.1 ∧ s.2.Counted t.2

namespace Alike

variable {α β : Type} {may : Prop} {n o : Machine}

theorem bind {σ : Type} {related : σ → σ → Prop} {k l : EStateM Halt σ α}
    {f g : α → EStateM Halt σ β} {s t : σ} (first : Alike related may (k s) (l t))
    (later : may → ∀ a s t, related s t → Alike related may (f a s) (g a t)) :
    Alike related may ((k >>= f) s) ((l >>= g) t) := by
  rcases first with ⟨fails, fails'⟩ | ⟨allowed, a, s', t', ran, ran', same⟩
  · exact Or.inl ⟨fails.first f, fails'.first g⟩
  · rw [bind_of_ok ran, bind_of_ok ran']
    exact later allowed a s' t' same

theorem map {σ τ : Type} {related : σ → σ → Prop} {related' : τ → τ → Prop} {f g : σ → τ}
    {x y : EStateM.Result Halt σ α} (h : Alike related may x y)
    (later : ∀ s t, related s t → related' (f s) (g t)) :
    Alike related' may (inState f x) (inState g y) := by
  rcases h with ⟨fails, fails'⟩ | ⟨allowed, a, s, t, rfl, rfl, same⟩
  · exact Or.inl ⟨fails.inState f, fails'.inState g⟩
  · exact Or.inr ⟨allowed, a, f s, g t, rfl, rfl, later s t same⟩

theorem lift {φ : Type} {k l : Run α} (h : Alike Machine.Counted may (k n) (l o)) (x : φ) :
    Alike SameHeld may (Held.lift k (x, n)) (Held.lift l (x, o)) := by
  rw [Held.lift_eq, Held.lift_eq]
  exact h.map fun _ _ counted => ⟨rfl, counted⟩

theorem zoom {φ ψ : Type} {part : ψ} {k l : Held ψ α}
    (h : Alike SameHeld may (k (part, n)) (l (part, o))) (restore : ψ → φ → φ) (x : φ) :
    Alike SameHeld may (Held.zoom part restore k (x, n)) (Held.zoom part restore l (x, o)) := by
  rw [Held.zoom_eq, Held.zoom_eq]
  exact h.map fun _ _ same => ⟨congrArg (restore · x) same.1, same.2⟩

theorem drop {φ : Type} {x : φ} {k l : Held φ α} (h : Alike SameHeld may (k (x, n)) (l (x, o))) :
    Alike Machine.Counted may (Held.drop x k n) (Held.drop x l o) := by
  rw [Held.drop_eq, Held.drop_eq]
  exact h.map fun _ _ same => same.2

theorem ofMachine {φ : Type} {x : φ} {k l : Held φ α} (h : Alike SameHeld may (k (x, n)) (l (x, o)))
    {restore : φ → Machine → Machine}
    (same : ∀ y n o, Machine.Counted n o → (restore y n).Counted (restore y o)) :
    Alike Machine.Counted may (Held.ofMachine x restore k n) (Held.ofMachine x restore l o) := by
  rw [Held.ofMachine_eq, Held.ofMachine_eq]
  refine h.map ?_
  rintro ⟨y, n⟩ ⟨_, o⟩ ⟨rfl, counted⟩
  exact same _ n o counted

end Alike

structure Machine.Mirrors (m n : Machine) : Prop where
  values : ∀ c, (n.store.cell c).value = (m.store.cell c).value
  locked : ∀ c, (m.store.cell c).writer = true → (n.store.cell c).writer = true

namespace Machine.Mirrors

variable {m n : Machine}

theorem of_counted (h : m.Counted n) : m.Mirrors n :=
  ⟨fun c => by rw [h.store], fun c locked => h.store ▸ locked⟩

theorem shallow (h : m.Mirrors n) (shallow : m.store.Shallow) : n.store.Shallow := by
  intro c
  rw [h.values c]
  exact shallow c

theorem taken (h : m.Mirrors n) {s : Store} {c : Nat} {name : Text} {pos : Position}
    (taken : n.store.beginWrite c name pos = .ok s) : m.Mirrors (n.withStore s) := by
  refine ⟨fun d => (Store.beginWrite_value taken d).trans (h.values d), fun d locked => ?_⟩
  obtain ⟨free, rfl⟩ := Store.beginWrite_cases taken
  have other : d ≠ c := by
    rintro rfl
    have unlocked : (n.store.cell d).writer = false := congrArg Prod.snd free
    rw [h.locked d locked] at unlocked
    cases unlocked
  change ((n.store.put c _).cell d).writer = true
  rw [Store.cell_put_of_ne other]
  exact h.locked d locked

end Machine.Mirrors

def WorkAlike {α : Type} (may : Prop) (m : Machine) (v : Value) (k l : Held Value α) : Prop :=
  ∀ n o, m.Mirrors n → n.Counted o → Alike SameHeld may (k (v, n)) (l (v, o))

namespace WorkAlike

variable {α : Type} {may : Prop} {m : Machine} {k l : Held Value α}

theorem behind {v : Value} (h : ∀ w, v.behind? m.store = some w → WorkAlike may m w k l) (name : Text)
    (pos : Position) : WorkAlike may m v (Held.behind name pos k) (Held.behind name pos l) := by
  intro n o mirrors counted
  cases v with
  | shared c =>
    refine .lift (k := Held.ofCell c name pos k) (l := Held.ofCell c name pos l) ?_ (Value.shared c)
    have same : o.store.beginWrite c name pos = n.store.beginWrite c name pos := by
      rw [counted.store]
    cases taken : n.store.beginWrite c name pos with
    | error e =>
      rw [Held.ofCell_refused taken, Held.ofCell_refused (same.trans taken)]
      exact Or.inl ⟨.error e n, .error e o⟩
    | ok s =>
      obtain ⟨free, -⟩ := Store.beginWrite_cases taken
      have unlocked : ¬ (m.store.cell c).writer = true := by
        intro locked
        have never := mirrors.locked c locked
        rw [show (n.store.cell c).writer = false from congrArg Prod.snd free] at never
        cases never
      have content : (s.cell c).value = (m.store.cell c).value :=
        (Store.beginWrite_value taken c).trans (mirrors.values c)
      rw [Held.ofCell_eq taken, Held.ofCell_eq (same.trans taken), content]
      have inside : (n.withStore s).Counted (o.withStore s) := by
        obtain ⟨operations, progress, rfl⟩ := counted
        exact ⟨operations, progress, rfl⟩
      refine (h _ (if_neg unlocked) _ _ (mirrors.taken taken) inside).map ?_
      rintro ⟨w, n⟩ ⟨w', o⟩ ⟨held, counted⟩
      obtain rfl : w' = w := held
      obtain ⟨operations, progress, rfl⟩ := counted
      exact ⟨operations, progress, rfl⟩
  | _ => exact h _ rfl n o mirrors counted

theorem zoom {v part : Value} (h : WorkAlike may m part k l) (restore : Value → Value → Value) :
    WorkAlike may m v (Held.zoom part restore k) (Held.zoom part restore l) :=
  fun n o mirrors counted => (h n o mirrors counted).zoom restore v

theorem fails {v : Value} {k l : Held Value α} (hk : ∀ n, m.Mirrors n → Fails (k (v, n)))
    (hl : ∀ n, m.Mirrors n → Fails (l (v, n))) : WorkAlike may m v k l := by
  intro n o mirrors counted
  have mirrors' : m.Mirrors o :=
    ⟨fun c => by rw [counted.store, mirrors.values], fun c locked => by
      rw [counted.store]
      exact mirrors.locked c locked⟩
  exact Or.inl ⟨hk n mirrors, hl o mirrors'⟩

theorem atAccessors {engine : Engine} {ev : Evaluator} {getName setName : Text}
    (unserved : ∀ name ∈ [getName, setName], ∀ types, engine.native? name types true = none)
    (index : List Value) (missing missing' : Held Value α) (pos : Position) (v : Value) :
    WorkAlike may m v (Eval.atAccessors engine ev getName setName index missing true pos k)
      (Eval.atAccessors engine ev getName setName index missing' true pos l) :=
  .fails (fun _ _ => Eval.atAccessors_fails unserved index missing k pos _)
    fun _ _ => Eval.atAccessors_fails unserved index missing' l pos _

section
variable {engine : Engine} {ev : Evaluator}

theorem atChar {t : Text} {c : Integer} {found : Text × CodePoint × Text}
    (there : Key.character? c t = some found) (h : WorkAlike may m (.char found.2.1) k l)
    (pos : Position) : WorkAlike may m (.string t) (Eval.atChar engine ev t (.i64 c) true pos k)
      (Eval.atChar engine ev t (.i64 c) true pos l) := by
  intro n o mirrors counted
  obtain ⟨front, c, tail⟩ := found
  have located (n : Machine) := Held.lift_of_ok (Eval.locateChar_char ev there pos n)
    (Value.string t)
  have inner : Alike SameHeld may ((do return (← k, ← Held.held) : Held Value (α × Value)) (.char c, n))
      ((do return (← l, ← Held.held) : Held Value (α × Value)) (.char c, o)) := by
    refine (h n o mirrors counted).bind fun allowed a s t same => ?_
    exact Or.inr ⟨allowed, (a, s.1), s, t, rfl, by rw [← same.1]; rfl, same⟩
  unfold Eval.atChar
  rw [bind_of_ok (located n), bind_of_ok (located o)]
  refine (inner.drop.lift (Value.string t)).bind fun allowed ⟨a, v⟩ s t same => ?_
  cases v with
  | char c => exact Or.inr ⟨allowed, a, _, _, rfl, rfl, rfl, same.2⟩
  | _ =>
    have refused (w : Value) (s : Holding) :
        Fails (Held.lift (Eval.mismatch engine ev "char" w pos : Run Unit) s) :=
      ((Eval.mismatch_still engine ev "char" w pos).fails s.2).lift s.1
    exact Or.inl ⟨(refused _ s).first _, (refused _ t).first _⟩

theorem atKey {entries : List (Text × Value)} {name : Text}
    (h : ∀ w, ((Dict.find? name entries).getD .unit).behind? m.store = some w → WorkAlike may m w k l)
    (pos : Position) : WorkAlike may m (.map entries) (Eval.atKey entries name true pos k)
      (Eval.atKey entries name true pos l) := by
  -- An entry that is missing is made, and holds unit at first.
  have entered (k : Held Value α) : Eval.atKey entries name true pos k =
      Held.zoom ((Dict.find? name entries).getD .unit)
        (fun v _ => .map (Dict.insert name v entries)) (Held.behind name pos k) := by
    unfold Eval.atKey
    cases Dict.find? name entries <;> rfl
  rw [entered, entered]
  exact .zoom (.behind h name pos) _

variable (core : engine.OnCore)
include core

theorem atIndex (fuel : 2 ≤ ev.fuel) (shallow : m.store.Shallow) {v index : Value}
    (h : ∀ w, ((index.key?.bind fun k => k.sees v).bind (·.behind? m.store)) = some w →
      WorkAlike may m w k l) (pos : Position) :
    WorkAlike may m v (Eval.atIndex engine ev index true pos k)
      (Eval.atIndex engine ev index true pos l) := by
  cases sees : index.key?.bind fun k => k.sees v with
  | none =>
    cases v with
    | array items =>
      have refused (n : Machine) (mirrors : m.Mirrors n) (k : Held Value α) :
          Fails (Eval.atIndex engine ev index true pos k (.array items, n)) :=
        .first ((Eval.arrayIndex_refuses fuel (mirrors.shallow shallow) sees pos).fails.lift _) _
      exact .fails (fun n mirrors => refused n mirrors k) fun n mirrors => refused n mirrors l
    | map entries =>
      have refused (n : Machine) (mirrors : m.Mirrors n) (k : Held Value α) :
          Fails (Eval.atIndex engine ev index true pos k (.map entries, n)) :=
        .first ((Eval.mapKey_refuses fuel (mirrors.shallow shallow) sees pos).fails.lift _) _
      exact .fails (fun n mirrors => refused n mirrors k) fun n mirrors => refused n mirrors l
    | string t =>
      have refused (n : Machine) (mirrors : m.Mirrors n) (k : Held Value α) :
          Fails (Eval.atIndex engine ev index true pos k (.string t, n)) :=
        .first ((Eval.locateChar_refuses fuel (mirrors.shallow shallow) sees pos).fails.lift _) _
      exact .fails (fun n mirrors => refused n mirrors k) fun n mirrors => refused n mirrors l
    | _ =>
      refine atAccessors (fun name mem types => core.unserved (Package.overloads_of_dollar ?_) types true)
        [index] _ _ pos _
      rcases List.mem_pair.mp mem with rfl | rfl
      · exact Package.dollar_mem_index.1
      · exact Package.dollar_mem_index.2
  | some part =>
    obtain ⟨key, known, there⟩ := Option.bind_eq_some_iff.mp sees
    rw [sees] at h
    cases Key.into_of_sees there with
    | @item c items _ start at' =>
      rw [Value.eq_of_key?_item known]
      intro n o mirrors counted
      have reached (n : Machine) (k : Held Value α) :
          Eval.atIndex engine ev (.i64 c) true pos k (.array items, n) =
            Held.zoom part (fun v _ => .array (items.set c.val.toNat v)) (Held.behind [] pos k)
              (.array items, n) := by
        have index := Held.lift_of_ok (Eval.arrayIndex_item ev start at' pos n)
          (Value.array items)
        refine (bind_of_ok index _).trans ?_
        rw [at']
        rfl
      rw [reached, reached]
      exact WorkAlike.zoom (.behind h [] pos) _ n o mirrors counted
    | char at' =>
      rw [Value.eq_of_key?_item known]
      exact atChar at' (h _ rfl) pos
    | @entry name entries =>
      rw [Value.eq_of_key?_entry known]
      exact atKey h pos

theorem atProperty {v : Value} {name : Text}
    (h : ∀ w, (((Key.entry name).sees v).bind (·.behind? m.store)) = some w → WorkAlike may m w k l)
    (pos : Position) : WorkAlike may m v (Eval.atProperty engine ev name true pos k)
      (Eval.atProperty engine ev name true pos l) := by
  cases v with
  | map entries => exact atKey h pos
  | _ =>
    refine atAccessors (fun own mem types => core.unserved (Package.overloads_of_dollar ?_) types true)
      [] _ _ pos _
    rcases List.mem_pair.mp mem with rfl | rfl
    · exact Package.dollar_mem_getter name
    · exact Package.dollar_mem_setter name

end

end WorkAlike

namespace Eval

/-- Works on a place end alike if they do so on what the place holds, and none succeeds if it holds
nothing. -/
def PlaceAlike (engine : Engine) (ev : Evaluator) (m : Machine) (e : Expr) (r : Option Value) : Prop :=
  ∀ (α : Type) (may : Prop) (k l : Held Value α), (∀ v, r = some v → WorkAlike may m v k l) →
    ∀ n o, m.Counted n → m.Counted o →
      Alike Machine.Counted may (access engine ev e true k n) (access engine ev e true l o)

section
variable {engine : Engine} {ev : Evaluator} {m : Machine}

theorem PlaceAlike.fails {e : Expr} {r : Option Value}
    (h : ∀ (α : Type) (k : Held Value α) n, m.Counted n → Fails (access engine ev e true k n)) :
    PlaceAlike engine ev m e r :=
  fun α _ k l _ n o counted counted' => Or.inl ⟨h α k n counted, h α l o counted'⟩

theorem variable_alike (pos : Position) (name : Text) :
    PlaceAlike engine ev m (.var pos name []) (m.start? (.variable name)) := by
  have eq (α : Type) (k : Held Value α) (n : Machine) :
      access engine ev (.var pos name []) true k n = atVariable ev name true pos k n := rfl
  rw [Machine.start?]
  cases found : m.scope.find? name with
  | none =>
    exact .fails fun α k n counted => (atVariable_missing (counted.scope ▸ found) true pos).fails
  | some e =>
    by_cases const : e.isConst
    · refine .fails fun α k n counted => ?_
      rw [eq, atVariable_found (counted.scope ▸ found), if_pos const, if_pos rfl]
      exact .error _ n
    · intro α may k l h n o counted counted'
      rw [eq, eq, atVariable_found (counted.scope ▸ found), atVariable_found (counted'.scope ▸ found),
        if_neg const, if_neg const]
      refine .ofMachine ((WorkAlike.behind h name pos) n o (.of_counted counted)
        (counted.symm.trans counted')) fun w n o counted => ?_
      obtain ⟨operations, progress, rfl⟩ := counted
      exact ⟨operations, progress, rfl⟩

theorem this_alike (pos : Position) : PlaceAlike engine ev m (.this pos) (m.start? .this) := by
  rw [Machine.start?]
  cases found : m.this with
  | none =>
    refine .fails fun α k n counted => ?_
    rw [access_this, counted.this, found]
    exact .error _ n
  | some v =>
    intro α may k l h n o counted counted'
    rw [access_this, access_this, counted.this, counted'.this, found]
    refine .ofMachine ((WorkAlike.behind h Reserved.this pos) n o (.of_counted counted)
      (counted.symm.trans counted')) fun w n o counted => ?_
    obtain ⟨operations, progress, rfl⟩ := counted
    exact ⟨operations, progress, rfl⟩

end

/-- How work on a place ends depends on what it does to the value that the place holds. -/
theorem place_alike {engine : Engine} {m : Machine} (core : engine.OnCore)
    (unstopped : engine.Unstopped) (shallow : m.store.Shallow) {e : Expr} (place : e.IsPlace) :
    Enough fun fuel => PlaceAlike engine (evaluator engine fuel) m e (e.look m) := by
  induction place with
  | @var pos name path =>
    cases path with
    | nil => exact .always fun fuel => variable_alike pos name
    | cons first rest => exact .always fun fuel => .fails fun α k n _ => .error _ n
  | @this pos => exact .always fun fuel => this_alike pos
  | @index pos object i _ operand ih =>
    refine ((ih.and (operand_comesTo unstopped shallow operand)).and
      (⟨2, fun _ enough => enough⟩ : Enough fun fuel => 2 ≤ fuel)).imp fun fuel both => ?_
    obtain ⟨⟨opened, position⟩, enough⟩ := both
    intro α may k l h n o counted counted'
    rw [Expr.look_index] at h
    have eq (k : Held Value α) (n : Machine) :
        access engine (evaluator engine fuel) (.index pos object i) true k n =
          (evalAt engine fuel i >>= fun i => access engine (evaluator engine fuel) object true
            (atIndex engine (evaluator engine fuel) i true pos k)) n := rfl
    rw [eq, eq]
    have index := position n counted
    have index' := position o counted'
    cases value : i.operand? m with
    | none =>
      rw [value] at index index'
      exact Or.inl ⟨index.fails.first _, index'.fails.first _⟩
    | some w =>
      rw [value] at index index'
      obtain ⟨n, ran, counted⟩ := index
      obtain ⟨o, ran', counted'⟩ := index'
      rw [bind_of_ok ran, bind_of_ok ran']
      refine opened α may _ _ (fun v held => ?_) n o counted counted'
      refine .atIndex core enough shallow (fun x found => h x ?_) pos
      rw [held, value]
      exact found
  | @property pos object name _ ih =>
    refine ih.imp fun fuel opened α may k l h n o counted counted' => ?_
    rw [Expr.look_property] at h
    refine opened α may _ _ (fun v held => ?_) n o counted counted'
    refine .atProperty core (fun x found => h x ?_) pos
    rw [held]
    exact found

end Eval

end Scripting
