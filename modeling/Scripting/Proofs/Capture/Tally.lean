import Mathlib.Order.Interval.Finset.Nat
import Mathlib.Order.Interval.Multiset
import Scripting.Proofs.Capture.Made
import Scripting.Proofs.Combining

/-
Closures counted. The literals in what has been read and in the functions that have been kept are, as
often as they occur, no more than the numbers that have been given, so no two of them share a name. A
number is only given after the body has been read, and the body may have taken numbers of its own.
-/
namespace Scripting

/-! Functions in the order of their keys. -/

instance FnKey.strictTotalOrder : IsStrictTotalOrder FnKey (· < ·) where
  trichotomous := by
    rintro ⟨name, arity⟩ ⟨name', arity'⟩ before after
    obtain rfl : name = name' := Std.Trichotomous.trichotomous name name'
      (fun first => before (.inl first)) (fun first => after (.inl first))
    obtain rfl : arity = arity' := Nat.le_antisymm
      (Nat.le_of_not_lt fun more => after (.inr ⟨rfl, more⟩))
      (Nat.le_of_not_lt fun fewer => before (.inr ⟨rfl, fewer⟩))
    rfl
  irrefl := by
    rintro key (before | ⟨-, fewer⟩)
    · exact List.lt_irrefl _ before
    · exact Nat.lt_irrefl _ fewer
  trans := by
    rintro a b c (before | ⟨same, fewer⟩) (before' | ⟨same', fewer'⟩)
    · exact .inl (List.lt_trans before before')
    · exact .inl (same' ▸ before)
    · exact .inl (same ▸ before')
    · exact .inr ⟨same.trans same', Nat.lt_trans fewer fewer'⟩

def Dict.bodies (functions : Dict FnKey ScriptFn) : List Mention :=
  functions.flatMap fun f => Stmt.mentionsAll f.2.body

namespace Mention

def closure? : Mention → Option Text
  | .closure _ function _ => some function
  | _ => none

def closures (ms : List Mention) : Multiset Text := ms.filterMap closure?

variable (ms ns : List Mention)

@[simp]
theorem closures_nil : closures [] = 0 := rfl

@[simp]
theorem closures_append : closures (ms ++ ns) = closures ms + closures ns := by
  simp [closures]

@[simp]
theorem closures_cons_name (x : Text) : closures (.name x :: ms) = closures ms := rfl

@[simp]
theorem closures_cons_declared (x : Text) : closures (.declared x :: ms) = closures ms := rfl

@[simp]
theorem closures_cons_closure (pos : Position) (function : Text) (captured : List Text) :
    closures (.closure pos function captured :: ms) = {function} + closures ms := rfl

@[simp]
theorem closures_enclose (inside : List Text) : closures (enclose inside ms) = closures ms := by
  induction ms generalizing inside with
  | nil => rfl
  | cons m rest ih =>
    cases m with
    | name x =>
      rw [enclose]
      split <;> simp [ih]
    | declared x => simp [enclose, ih]
    | closure pos function captured => simp [enclose, ih]

theorem closures_insert (key : FnKey) (f : ScriptFn) (functions : Dict FnKey ScriptFn) :
    closures (functions.insert key f).bodies ≤
      closures (Stmt.mentionsAll f.body) + closures functions.bodies := by
  induction functions with
  | nil => simp [Dict.insert, Dict.bodies]
  | cons entry rest ih =>
    obtain ⟨k, g⟩ := entry
    have one : ∀ (key : FnKey) (f : ScriptFn) (d : Dict FnKey ScriptFn),
        closures (Dict.bodies ((key, f) :: d)) =
          closures (Stmt.mentionsAll f.body) + closures d.bodies := by
      intro key f d
      simp [Dict.bodies]
    unfold Dict.insert
    split
    · rw [one, one]
      exact add_le_add_right (Multiset.le_add_left _ _) _
    · split
      · rw [one]
      · rw [one, one, add_left_comm]
        gcongr

end Mention

open Mention

/-! The numbers that are given. -/

def closureNames (first next : Nat) : Multiset Text := (Multiset.Ico first next).map closureName

section

variable {first mid next : Nat}

theorem closureNames_self (n : Nat) : closureNames n n = 0 := by simp [closureNames]

theorem closureNames_one (n : Nat) : closureNames n (n + 1) = {closureName n} := by
  rw [closureNames, Multiset.Ico, Nat.Ico_succ_singleton]
  rfl

theorem closureNames_add (before : first ≤ mid) (after : mid ≤ next) :
    closureNames first mid + closureNames mid next = closureNames first next := by
  rw [closureNames, closureNames, closureNames, ← Multiset.map_add,
    Multiset.Ico_add_Ico_eq_Ico before after]

theorem closureNames_nodup (first next : Nat) : (closureNames first next).Nodup :=
  Multiset.nodup_Ico.map fun _ _ => closureName_injective

end

namespace Grammar

variable {settings : Settings} {tokens : List PlacedToken} {since : Nat × Multiset Text}
  {before ms : List Mention} {s t : State}

def Definable (tokens : List PlacedToken) (name : Text) : Prop :=
  ∃ s t, s.rest <:+ tokens ∧ functionName s = .ok name t

theorem Definable.unmarked {name : Text} (h : Definable tokens name) (clear : Unmarked tokens)
    (id : Nat) : name ≠ closureName id := by
  obtain ⟨s, t, within, named⟩ := h
  exact functionName_unmarked within named clear id

variable (tokens) in
/-- Where reading stands that began with some number and, in the functions, with some closures: beside
these, the closures in what it has read and in the functions go by numbers that it took. -/
structure State.Tallied (since : Nat × Multiset Text) (s : State) (ms : List Mention) : Prop where
  rest : s.rest <:+ tokens
  ordered : s.functions.Pairwise fun a b => a.1 < b.1
  named : ∀ f ∈ s.functions, (∃ id, f.2.name = closureName id) ∨ Definable tokens f.2.name
  start : since.1 ≤ s.nextClosure
  counted : closures ms + closures s.functions.bodies ≤
    since.2 + closureNames since.1 s.nextClosure

namespace State.Tallied

theorem same (h : s.Tallied tokens since before) (rest : t.rest <:+ s.rest)
    (functions : t.functions = s.functions) (next : t.nextClosure = s.nextClosure)
    (closed : closures ms = closures before) : t.Tallied tokens since ms := by
  obtain ⟨within, ordered, named, start, counted⟩ := h
  rw [← functions, ← next] at *
  exact ⟨rest.trans within, ordered, named, start, closed ▸ counted⟩

theorem anew (h : s.Tallied tokens since ms) :
    s.Tallied tokens (s.nextClosure, closures s.functions.bodies) [] :=
  ⟨h.rest, h.ordered, h.named, Nat.le_refl _, by simp [closureNames_self]⟩

theorem add (h : s.Tallied tokens since before)
    (later : t.Tallied tokens (s.nextClosure, closures s.functions.bodies) ms) :
    t.Tallied tokens since (before ++ ms) := by
  refine ⟨later.rest, later.ordered, later.named, Nat.le_trans h.start later.start, ?_⟩
  calc closures (before ++ ms) + closures t.functions.bodies
      = closures before + (closures ms + closures t.functions.bodies) := by
        rw [closures_append, add_assoc]
    _ ≤ closures before +
          (closures s.functions.bodies + closureNames s.nextClosure t.nextClosure) :=
        add_le_add_right later.counted _
    _ = closures before + closures s.functions.bodies +
          closureNames s.nextClosure t.nextClosure := (add_assoc _ _ _).symm
    _ ≤ since.2 + closureNames since.1 s.nextClosure +
          closureNames s.nextClosure t.nextClosure := add_le_add_left h.counted _
    _ = since.2 + closureNames since.1 t.nextClosure := by
        rw [add_assoc, closureNames_add h.start later.start]

end State.Tallied

variable (tokens) in
def tally : Recorder where
  ι := Nat × Multiset Text
  holds := State.Tallied tokens
  skip skips counted := counted.same skips.rest skips.functions skips.nextClosure rfl
  sink _ counted := counted.same (List.suffix_refl _) rfl rfl rfl
  use x before := by
    intro since s a t counted eq
    cases eq
    exact counted.same (List.suffix_refl _) rfl rfl (by simp)
  declare x before := by
    intro since s a t counted eq
    cases eq
    exact counted.same (List.suffix_refl _) rfl rfl (by simp)
  inScope inside before := by
    intro since s a t counted eq
    obtain ⟨u, read, rfl⟩ := inScope_cases eq
    have added := counted.add (inside _ s a u counted.anew read)
    exact added.same (List.suffix_refl _) rfl rfl (by simp)
  inLoop inside before := by
    intro since s a t counted eq
    obtain ⟨u, read, rfl⟩ := inLoop_cases eq
    have entered := counted.same (t := { s with
      body := { s.body with loopDepth := s.body.loopDepth + 1 } }) (List.suffix_refl _) rfl rfl rfl
    have added := entered.add (inside _ _ a u entered.anew read)
    exact added.same (List.suffix_refl _) rfl rfl rfl

section

variable {α : Type} {p : Parse α} {inside : α → List Mention}

theorem inBody_tallies (h : Carries (State.Tallied tokens) [] p inside) {body : Body} {r : α × Body}
    (counted : s.Tallied tokens since before) (eq : inBody body p s = .ok r t) :
    t.Tallied tokens since (before ++ inside r.1) := by
  obtain ⟨u, read, -, rfl⟩ := inBody_cases eq
  have entered := counted.same (t := { s with body := body, outer := s.body :: s.outer })
    (List.suffix_refl _) rfl rfl rfl
  have added := entered.add (h _ _ r.1 u entered.anew read)
  exact added.same (List.suffix_refl _) rfl rfl rfl

theorem State.Tallied.insert {f : ScriptFn} (h : s.Tallied tokens since (before ++ ms))
    (code : closures (Stmt.mentionsAll f.body) = closures ms)
    (named : (∃ id, f.name = closureName id) ∨ Definable tokens f.name) :
    State.Tallied tokens since { s with functions := s.functions.insert f.key f } before := by
  refine ⟨h.rest, Dict.pairwise_merge h.ordered [(f.key, f)], fun g hg => ?_, h.start, ?_⟩
  · rcases Dict.mem_insert hg with rfl | old
    · exact named
    · exact h.named g old
  · calc closures before + closures (s.functions.insert f.key f).bodies
        ≤ closures before + (closures (Stmt.mentionsAll f.body) + closures s.functions.bodies) :=
          add_le_add_right (closures_insert _ _ _) _
      _ = closures (before ++ ms) + closures s.functions.bodies := by
          rw [closures_append, code, add_assoc]
      _ ≤ since.2 + closureNames since.1 s.nextClosure := h.counted

theorem State.Tallied.number (h : s.Tallied tokens since before) (pos : Position)
    (captured : List Text) : State.Tallied tokens since { s with nextClosure := s.nextClosure + 1 }
      (before ++ [.closure pos (closureName s.nextClosure) captured]) := by
  refine ⟨h.rest, h.ordered, h.named, Nat.le_succ_of_le h.start, ?_⟩
  have taken := closureNames_add h.start (Nat.le_succ s.nextClosure)
  rw [closureNames_one] at taken
  calc closures (before ++ [.closure pos (closureName s.nextClosure) captured]) +
          closures s.functions.bodies
      = closures before + closures s.functions.bodies + {closureName s.nextClosure} := by
        simp [add_right_comm]
    _ ≤ since.2 + closureNames since.1 s.nextClosure + {closureName s.nextClosure} :=
        add_le_add_left h.counted _
    _ = since.2 + closureNames since.1 (s.nextClosure + 1) := by rw [add_assoc, taken]

end

variable (tokens) in
theorem tally_spans : (tally tokens).Spans settings where
  closure {rules} kept before := by
    intro since s e t counted eq
    obtain ⟨v, u, pos, stmt, inner, f, skips, -, read, name, -, code, -, rfl, used⟩ :=
      closure_cases eq
    have inside :=
      inBody_tallies (Recorder.statement_records kept) ((tally tokens).skip skips counted) read
    have defined := inside.insert (f := f) (by rw [code]) (.inl ⟨_, name⟩)
    have numbered := defined.number pos inner.captured
    rw [← name] at numbered
    have met := (tally tokens).useAll_records inner.captured since _ () t numbered used
    simpa [Expr.mentions] using met
  definition {rules} kept before access := by
    intro since s a t counted eq
    obtain ⟨n, m, v, u, inner, f, skipsₙ, named, skips, -, -, inside, rfl⟩ := functionDefinition_cases eq
    have read := inBody_tallies (Recorder.block_records kept) ((tally tokens).skip skips counted) inside
    exact read.insert (by simp) (.inr ⟨n, m, skipsₙ.rest.trans counted.rest, named⟩)

/-- In an accepted script the closures go by numbers that were given while it was read, each by its own,
and all other functions by names that definitions can be given. -/
theorem parse_tallies {asExpression : Bool} {first next : Nat} {r : Script}
    (h : parse settings asExpression tokens first = (.ok r, next)) :
    r.functions.Pairwise (fun a b => a.1 < b.1) ∧
    (∀ f ∈ r.functions, (∃ id, f.2.name = closureName id) ∨
      Definable (State.start tokens first).rest f.2.name) ∧
    closures r.mentions ≤ closureNames first next := by
  obtain ⟨t, functions, numbered, carries⟩ :=
    Recorder.parse_records (tally_spans (State.start tokens first).rest) h
  have start : (State.start tokens first).Tallied (State.start tokens first).rest (first, 0) [] := by
    refine ⟨List.suffix_refl _, .nil, (fun f none => nomatch none), Nat.le_refl _, ?_⟩
    simp [State.start, Dict.bodies, closureNames_self]
  obtain ⟨-, ordered, named, -, counted⟩ := carries (first, 0) start
  rw [functions] at ordered named counted
  rw [numbered, zero_add] at counted
  refine ⟨ordered, named, ?_⟩
  calc closures r.mentions = closures (Stmt.mentionsAll r.statements) + closures r.functions.bodies :=
        closures_append _ _
    _ ≤ closureNames first next := counted

end Grammar

end Scripting
