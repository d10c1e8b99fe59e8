import Mathlib.Data.Finite.Prod
import Mathlib.Data.Set.Finite.Lattice
import Mathlib.Order.WellFounded
import Scripting.Proofs.Sharing

/-
When comparing two values comes to an end. A comparison asks for comparisons of parts, and of what
stands behind aliases. A closure can be stored in a variable that it captures, and then the cell of
the variable leads back to itself: comparing two such closures asks for the same comparison again,
and never ends. This is the only way in which a comparison can fail to end.
-/
section

open Relation

namespace Scripting

section Returning

variable {α : Type} {r : α → α → Prop} {x : α}

def ComesBack (r : α → α → Prop) (x : α) : Prop := ∃ y, ReflTransGen r x y ∧ TransGen r y y

theorem not_comesBack_of_acc (h : Acc (fun b a => r a b) x) : ¬ ComesBack r x := by
  induction h with
  | intro x _ ih =>
    rintro ⟨y, reached, loop⟩
    obtain rfl | ⟨z, step, rest⟩ := ReflTransGen.cases_head reached
    · obtain ⟨z, step, rest⟩ := TransGen.head'_iff.mp loop
      exact ih z step ⟨z, .refl, TransGen.tail' rest step⟩
    · exact ih z step ⟨y, rest, loop⟩

theorem acc_iff_not_comesBack (finite : {y | ReflTransGen r x y}.Finite) :
    Acc (fun b a => r a b) x ↔ ¬ ComesBack r x := by
  constructor
  · exact not_comesBack_of_acc
  · intro once
    let Reached := {y // ReflTransGen r x y}
    let later (b a : Reached) : Prop := TransGen r a.1 b.1
    have : Finite Reached := finite
    have : IsTrans Reached later := ⟨fun _ _ _ hab hbc => hbc.trans hab⟩
    have : Std.Irrefl later := ⟨fun a loop => once ⟨a.1, a.2, loop⟩⟩
    have wf : WellFounded later := Finite.wellFounded_of_trans_of_irrefl later
    have all : ∀ y : Reached, Acc (fun b a => r a b) y.1 := by
      intro y
      induction y using wf.induction with
      | _ y ih => exact ⟨_, fun z step => ih ⟨z, y.2.tail step⟩ (.single step)⟩
    exact all ⟨x, .refl⟩

end Returning

theorem settles_iff_known {α : Type} {reading : Nat → Except Halt α}
    (stays : ∀ {n k}, reading n ≠ .error .outOfFuel → n ≤ k → reading k = reading n) :
    Settles reading ↔ ∃ n, reading n ≠ .error .outOfFuel := by
  constructor
  · rintro ⟨effort, answer, known, settled⟩
    exact ⟨effort, settled effort le_rfl ▸ known⟩
  · rintro ⟨n, known⟩
    exact ⟨n, _, known, fun fuel enough => stays known enough⟩

theorem Settles.map_iff {α β : Type} {reading : Nat → Except Halt α} {f : α → β}
    (injective : f.Injective) : Settles (fun n => (reading n).map f) ↔ Settles reading := by
  have known_iff (x : Except Halt α) : x.map f ≠ .error .outOfFuel ↔ x ≠ .error .outOfFuel := by
    cases x <;> simp [Except.map]
  have same {x y : Except Halt α} (h : x.map f = y.map f) : x = y := by
    cases x <;> cases y <;> simp [Except.map] at h ⊢
    · exact h
    · exact injective h
  constructor
  · rintro ⟨effort, answer, known, settled⟩
    have answered : (reading effort).map f = answer := settled effort le_rfl
    refine ⟨effort, reading effort, ?_, fun fuel enough => same ?_⟩
    · rwa [← known_iff, answered]
    · exact (settled fuel enough).trans answered.symm
  · rintro ⟨effort, answer, known, settled⟩
    exact ⟨effort, answer.map f, (known_iff answer).mpr known,
      fun fuel enough => congrArg (Except.map f) (settled fuel enough)⟩

/-- A comparison that has been asked for. -/
structure Comparison where
  sides : Value.Sides
  left : Value
  right : Value

namespace Comparison

variable {s : Store} {t u : Comparison}

def between (a b : Value) : Comparison := ⟨{ same := false }, a, b⟩

def run (s : Store) (fuel : Nat) (t : Comparison) : Except Halt Bool :=
  Value.equalAt s fuel t.sides t.left t.right

def ofParts (sides : Value.Sides) (as bs : List Value) : List Comparison :=
  if as.length = bs.length then List.zipWith (fun a b => ⟨sides.descend, a, b⟩) as bs else []

def ofEntries (sides : Value.Sides) :
    List (Text × Value) → List (Text × Value) → List Comparison
  | (k, a) :: as, (l, b) :: bs =>
    if k = l then ⟨sides.descend, a, b⟩ :: ofEntries sides as bs else []
  | _, _ => []

/-- The comparisons that an answer rests on. They are asked for one after another until one finds a
difference. -/
def needs (s : Store) : Comparison → List Comparison
  | ⟨sides, .shared c, b⟩ =>
    if (s.cell c).writer then [] else [⟨sides.enterLeft c, (s.cell c).value, b⟩]
  | ⟨sides, a, .shared c⟩ =>
    if (s.cell c).writer then [] else [⟨sides.enterRight c, a, (s.cell c).value⟩]
  | ⟨sides, .array as, .array bs⟩ => ofParts sides as bs
  | ⟨sides, .map as, .map bs⟩ => if as.length = bs.length then ofEntries sides as bs else []
  | ⟨sides, .fn f as, .fn g bs⟩ => if f = g then ofParts sides as bs else []
  | _ => []

def inTurn (ask : Comparison → Except Halt Bool) (verdict : Except Halt Bool) :
    List Comparison → Except Halt Bool
  | [] => verdict
  | t :: rest => do if ← ask t then inTurn ask verdict rest else return false

theorem inTurn_single (ask : Comparison → Except Halt Bool) (t : Comparison) :
    inTurn ask (.ok true) [t] = ask t := by
  cases answer : ask t with
  | error h => simp [inTurn, answer, bind, Except.bind]
  | ok same => cases same <;> simp [inTurn, answer, bind, Except.bind, pure, Except.pure]

theorem allEqual_eq (n : Nat) (sides : Value.Sides) {as bs : List Value}
    (even : as.length = bs.length) :
    Value.allEqual (Value.equalAt s n sides.descend) as bs =
      inTurn (run s n) (.ok true) (ofParts sides as bs) := by
  rw [ofParts, if_pos even]
  induction as generalizing bs with
  | nil =>
    cases bs with
    | nil => rfl
    | cons b bs => simp at even
  | cons a as ih =>
    cases bs with
    | nil => simp at even
    | cons b bs => simp [Value.allEqual, inTurn, run, ih (by simpa using even)]

theorem entriesEqual_eq (sides : Value.Sides) (as bs : List (Text × Value)) :
    ∃ verdict, verdict ≠ .error .outOfFuel ∧ ∀ n,
      Value.entriesEqual (Value.equalAt s n sides.descend) as bs =
        inTurn (run s n) verdict (ofEntries sides as bs) := by
  induction as generalizing bs with
  | nil => cases bs <;> exact ⟨_, by simp, fun _ => rfl⟩
  | cons e as ih =>
    cases bs with
    | nil => exact ⟨.ok false, by simp, fun _ => rfl⟩
    | cons f bs =>
      by_cases same : e.1 = f.1
      · obtain ⟨verdict, known, rest⟩ := ih bs
        refine ⟨verdict, known, fun n => ?_⟩
        simp [Value.entriesEqual, ofEntries, inTurn, run, same, rest n]
      · refine ⟨.ok false, by simp, fun n => ?_⟩
        simp [Value.entriesEqual, ofEntries, inTurn, same, pure, Except.pure]

/-- One step of a comparison: it asks for all that it needs, with one unit of fuel less. -/
def Steps (s : Store) (t : Comparison) : Prop :=
  ∃ verdict, verdict ≠ .error .outOfFuel ∧
    ∀ n, run s (n + 1) t = inTurn (run s n) verdict (needs s t)

theorem Steps.known (answer : Except Halt Bool) (h : answer ≠ .error .outOfFuel)
    (alone : needs s t = []) (eq : ∀ n, run s (n + 1) t = answer) : Steps s t :=
  ⟨answer, h, fun n => by rw [eq, alone, inTurn]⟩

theorem Steps.behind (c : Nat) (next : Value → Comparison)
    (needed : needs s t = if (s.cell c).writer then [] else [next (s.cell c).value])
    (eq : ∀ n, run s (n + 1) t = do run s n (next (← s.read c [] .nowhere))) : Steps s t := by
  unfold Steps
  rw [needed]
  cases locked : (s.cell c).writer with
  | true =>
    refine ⟨.error (.cause (.dataRace []) .nowhere), by simp [Halt.cause], fun n => ?_⟩
    simp [eq, Store.read, locked, inTurn, bind, Except.bind]
  | false =>
    refine ⟨.ok true, by simp, fun n => ?_⟩
    simp [eq, Store.read, locked, inTurn_single, bind, Except.bind]

theorem steps (s : Store) (t : Comparison) : Steps s t := by
  obtain ⟨sides, a, b⟩ := t
  cases a with
  | shared c => exact .behind c (fun v => ⟨sides.enterLeft c, v, b⟩) rfl fun _ => rfl
  | array as =>
    cases b with
    | shared c => exact .behind c (fun v => ⟨sides.enterRight c, .array as, v⟩) rfl fun _ => rfl
    | array bs =>
      by_cases even : as.length = bs.length
      · refine ⟨.ok true, by simp, fun n => ?_⟩
        simp [run, Value.equalAt, even, needs, allEqual_eq]
      · exact .known (.ok false) (by simp) (by simp [needs, ofParts, even])
          fun n => by simp [run, Value.equalAt, even]
    | _ => exact .known (.ok false) (by simp) rfl fun _ => rfl
  | map as =>
    cases b with
    | shared c => exact .behind c (fun v => ⟨sides.enterRight c, .map as, v⟩) rfl fun _ => rfl
    | map bs =>
      by_cases even : as.length = bs.length
      · obtain ⟨verdict, known, eq⟩ := entriesEqual_eq (s := s) sides as bs
        refine ⟨verdict, known, fun n => ?_⟩
        simp [run, Value.equalAt, even, needs, eq]
      · exact .known (.ok false) (by simp) (by simp [needs, even])
          fun n => by simp [run, Value.equalAt, even]
    | _ => exact .known (.ok false) (by simp) rfl fun _ => rfl
  | fn f as =>
    cases b with
    | shared c => exact .behind c (fun v => ⟨sides.enterRight c, .fn f as, v⟩) rfl fun _ => rfl
    | fn g bs =>
      by_cases fits : f = g ∧ as.length = bs.length
      · refine ⟨.ok true, by simp, fun n => ?_⟩
        simp [run, Value.equalAt, fits, needs, allEqual_eq]
      · have differ : f ≠ g ∨ as.length ≠ bs.length := by grind
        refine .known (.ok false) (by simp) ?_ fun n => by simp [run, Value.equalAt, differ]
        rcases differ with names | lengths <;> simp [needs, ofParts, *]
    | _ => exact .known (.ok false) (by simp) rfl fun _ => rfl
  | _ =>
    cases b with
    | shared c => exact .behind c (fun v => ⟨sides.enterRight c, _, v⟩) rfl fun _ => rfl
    | _ => exact .known (.ok _) (by simp) rfl fun _ => rfl

theorem inTurn_mono {ask more : Comparison → Except Halt Bool} {verdict : Except Halt Bool}
    (gains : ∀ u, ask u ≠ .error .outOfFuel → more u = ask u) {ts : List Comparison}
    (known : inTurn ask verdict ts ≠ .error .outOfFuel) :
    inTurn more verdict ts = inTurn ask verdict ts := by
  induction ts with
  | nil => rfl
  | cons u rest ih =>
    have first : ask u ≠ .error .outOfFuel := by
      intro dry
      simp [inTurn, dry, bind, Except.bind] at known
    rw [inTurn, inTurn, gains u first]
    cases answer : ask u with
    | error h => rfl
    | ok same =>
      cases same with
      | false => rfl
      | true =>
        rw [inTurn, answer] at known
        exact ih known

theorem run_mono {n k : Nat} (h : run s n t ≠ .error .outOfFuel) (le : n ≤ k) :
    run s k t = run s n t := by
  induction n generalizing t k with
  | zero => exact absurd rfl h
  | succ n ih =>
    obtain ⟨k, rfl⟩ : ∃ j, k = j + 1 := ⟨k - 1, by omega⟩
    obtain ⟨verdict, -, eq⟩ := steps s t
    rw [eq] at h ⊢
    rw [eq]
    exact inTurn_mono (fun u known => ih known (by omega)) h

theorem settles_iff : Settles (fun n => run s n t) ↔ ∃ n, run s n t ≠ .error .outOfFuel :=
  settles_iff_known run_mono

theorem run_eq {n k : Nat} {same : Bool} (h : run s k t = .ok same)
    (known : run s n t ≠ .error .outOfFuel) : run s n t = .ok same := by
  rcases Nat.le_total n k with le | le
  · rw [← run_mono known le, h]
  · rw [run_mono (by simp [h]) le, h]

def Agree (s : Store) (t : Comparison) : Prop := ∃ n, run s n t = .ok true

/-- In the course of one comparison another one is asked for: all that it needs before have found no
difference. -/
def Asks (s : Store) (t u : Comparison) : Prop :=
  ∃ before after, needs s t = before ++ u :: after ∧ ∀ v ∈ before, Agree s v

theorem inTurn_asked {n : Nat} {verdict : Except Halt Bool} {before after : List Comparison}
    (known : inTurn (run s n) verdict (before ++ u :: after) ≠ .error .outOfFuel)
    (agree : ∀ v ∈ before, Agree s v) : run s n u ≠ .error .outOfFuel := by
  induction before with
  | nil =>
    intro dry
    simp [inTurn, dry, bind, Except.bind] at known
  | cons v before ih =>
    have first : run s n v ≠ .error .outOfFuel := by
      intro dry
      simp [inTurn, dry, bind, Except.bind] at known
    obtain ⟨k, yes⟩ := agree v (by simp)
    have yes := run_eq yes first
    refine ih ?_ fun w hw => agree w (by simp [hw])
    simpa [inTurn, yes, bind, Except.bind] using known

theorem inTurn_known {verdict : Except Halt Bool} (final : verdict ≠ .error .outOfFuel)
    {ts : List Comparison}
    (h : ∀ before u after, ts = before ++ u :: after → (∀ v ∈ before, Agree s v) →
      ∃ n, run s n u ≠ .error .outOfFuel) :
    ∃ n, inTurn (run s n) verdict ts ≠ .error .outOfFuel := by
  induction ts with
  | nil => exact ⟨0, final⟩
  | cons u rest ih =>
    obtain ⟨n, known⟩ := h [] u rest rfl (by simp)
    cases answer : run s n u with
    | error halt =>
      refine ⟨n, ?_⟩
      rw [answer] at known
      simpa [inTurn, answer, bind, Except.bind] using known
    | ok same =>
      cases same with
      | false => exact ⟨n, by simp [inTurn, answer, bind, Except.bind, pure, Except.pure]⟩
      | true =>
        obtain ⟨k, others⟩ := ih fun before w after split agree =>
          h (u :: before) w after (by rw [split]; rfl) (by
            intro v hv
            rcases List.mem_cons.mp hv with rfl | later
            · exact ⟨n, answer⟩
            · exact agree v later)
        refine ⟨max n k, ?_⟩
        rw [inTurn, run_mono known (Nat.le_max_left n k), answer]
        have more := inTurn_mono (fun w known => run_mono known (Nat.le_max_right n k)) others
        exact more ▸ others

/-- A comparison comes to an end if all that it asks for do. -/
theorem settles_iff_acc : Settles (fun n => run s n t) ↔ Acc (fun u t => Asks s t u) t := by
  rw [settles_iff]
  constructor
  · rintro ⟨n, known⟩
    induction n generalizing t with
    | zero => exact absurd rfl known
    | succ n ih =>
      obtain ⟨verdict, -, eq⟩ := steps s t
      refine ⟨_, fun u asked => ih ?_⟩
      obtain ⟨before, after, split, agree⟩ := asked
      rw [eq, split] at known
      exact inTurn_asked known agree
  · intro h
    induction h with
    | intro t _ ih =>
      obtain ⟨verdict, final, eq⟩ := steps s t
      obtain ⟨n, known⟩ := inTurn_known final fun before u after split agree =>
        ih u ⟨before, after, split, agree⟩
      exact ⟨n + 1, by rw [eq]; exact known⟩

end Comparison

inductive Value.Part : Value → Value → Prop where
  | item {items : List Value} {v : Value} (mem : v ∈ items) : Part (.array items) v
  | entry {entries : List (Text × Value)} {e : Text × Value} (mem : e ∈ entries) :
      Part (.map entries) e.2
  | argument {name : Text} {curry : List Value} {v : Value} (mem : v ∈ curry) :
      Part (.fn name curry) v

theorem Value.finite_parts : ∀ v, {w | ReflTransGen Value.Part v w}.Finite
  | .array items => by
    have parts : (⋃ v ∈ {v | v ∈ items}, {w | ReflTransGen Value.Part v w}).Finite :=
      items.finite_toSet.biUnion fun v mem => finite_parts v
    refine (parts.insert (.array items)).subset fun w reached => ?_
    obtain rfl | ⟨v, part, rest⟩ := ReflTransGen.cases_head reached
    · exact Set.mem_insert _ _
    · cases part with
      | item mem => exact Or.inr (Set.mem_biUnion mem rest)
  | .map entries => by
    have parts : (⋃ e ∈ {e | e ∈ entries}, {w | ReflTransGen Value.Part e.2 w}).Finite :=
      entries.finite_toSet.biUnion fun e mem => finite_parts e.2
    refine (parts.insert (.map entries)).subset fun w reached => ?_
    obtain rfl | ⟨v, part, rest⟩ := ReflTransGen.cases_head reached
    · exact Set.mem_insert _ _
    · cases part with
      | entry mem => exact Or.inr (Set.mem_biUnion mem rest)
  | .fn name curry => by
    have parts : (⋃ v ∈ {v | v ∈ curry}, {w | ReflTransGen Value.Part v w}).Finite :=
      curry.finite_toSet.biUnion fun v mem => finite_parts v
    refine (parts.insert (.fn name curry)).subset fun w reached => ?_
    obtain rfl | ⟨v, part, rest⟩ := ReflTransGen.cases_head reached
    · exact Set.mem_insert _ _
    · cases part with
      | argument mem => exact Or.inr (Set.mem_biUnion mem rest)
  | .unit | .bool _ | .int .. | .float _ | .float32 _ | .char _ | .string _ | .shared _ | .host _ => by
    refine Set.Subsingleton.finite fun w h w' h' => ?_
    obtain rfl | ⟨v, ⟨⟩, rest⟩ := ReflTransGen.cases_head h
    obtain rfl | ⟨v, ⟨⟩, rest⟩ := ReflTransGen.cases_head h'
    rfl
termination_by v => sizeOf v
decreasing_by
  · have small := List.sizeOf_lt_of_mem mem
    simp
    omega
  · have small := List.sizeOf_lt_of_mem mem
    obtain ⟨key, v⟩ := e
    simp at small ⊢
    omega
  · have small := List.sizeOf_lt_of_mem mem
    simp
    omega

namespace Comparison

variable {s : Store} {t u : Comparison}

def Within (s : Store) (t : Comparison) (w : Value) : Prop :=
  ReflTransGen Value.Part t.left w ∨ ReflTransGen Value.Part t.right w ∨
    ∃ cell ∈ default :: s.cells.toList, ReflTransGen Value.Part cell.value w

theorem Within.cell (s : Store) (t : Comparison) (c : Nat) : Within s t (s.cell c).value := by
  refine Or.inr (Or.inr ⟨s.cell c, ?_, .refl⟩)
  cases inside : s.cells[c]? with
  | none => simp [Store.cell, inside]
  | some cell =>
    have mem := Array.mem_of_getElem? inside
    simp [Store.cell, inside, mem]

theorem Within.part {v w : Value} (h : Within s t v) (part : v.Part w) : Within s t w := by
  rcases h with left | right | ⟨cell, mem, inside⟩
  · exact Or.inl (left.tail part)
  · exact Or.inr (Or.inl (right.tail part))
  · exact Or.inr (Or.inr ⟨cell, mem, inside.tail part⟩)

theorem Within.finite (s : Store) (t : Comparison) : {w | Within s t w}.Finite := by
  have cells : {w | ∃ cell ∈ default :: s.cells.toList,
      ReflTransGen Value.Part cell.value w}.Finite := by
    have parts := (default :: s.cells.toList).finite_toSet.biUnion
      fun cell (_ : cell ∈ _) => Value.finite_parts cell.value
    refine parts.subset fun w h => ?_
    obtain ⟨cell, mem, piece⟩ := h
    exact Set.mem_biUnion mem piece
  exact (Value.finite_parts t.left).union ((Value.finite_parts t.right).union cells)

def Places (s : Store) (t : Comparison) : Set (Option Nat) :=
  {t.sides.left, t.sides.right, none} ∪ some '' {c | Within s t (.shared c)}

theorem finite_places (s : Store) (t : Comparison) : (Places s t).Finite := by
  have cells : {c | Within s t (.shared c)}.Finite :=
    (Within.finite s t).preimage fun c _ d _ same => by cases same; rfl
  exact (Set.toFinite _).union (cells.image some)

structure Near (s : Store) (t u : Comparison) : Prop where
  left : Within s t u.left
  right : Within s t u.right
  leftPlace : u.sides.left ∈ Places s t
  rightPlace : u.sides.right ∈ Places s t

theorem finite_near (s : Store) (t : Comparison) : {u | Near s t u}.Finite := by
  have values := Within.finite s t
  have places := finite_places s t
  have all := (Set.finite_univ (α := Bool)).prod (places.prod (places.prod (values.prod values)))
  refine (all.image fun p => (⟨⟨p.1, p.2.1, p.2.2.1⟩, p.2.2.2.1, p.2.2.2.2⟩ : Comparison)).subset ?_
  intro u near
  exact ⟨(u.sides.same, u.sides.left, u.sides.right, u.left, u.right),
    ⟨Set.mem_univ _, near.leftPlace, near.rightPlace, near.left, near.right⟩, rfl⟩

theorem mem_ofParts {sides : Value.Sides} {as bs : List Value} (h : t ∈ ofParts sides as bs) :
    t.sides = sides.descend ∧ t.left ∈ as ∧ t.right ∈ bs := by
  unfold ofParts at h
  split at h
  · next even =>
    obtain ⟨i, there⟩ := List.mem_iff_getElem?.mp h
    rw [List.getElem?_zipWith_eq_some] at there
    obtain ⟨a, b, left, right, rfl⟩ := there
    exact ⟨rfl, List.mem_of_getElem? left, List.mem_of_getElem? right⟩
  · simp at h

theorem mem_ofEntries {sides : Value.Sides} {as bs : List (Text × Value)}
    (h : t ∈ ofEntries sides as bs) :
    t.sides = sides.descend ∧ (∃ e ∈ as, e.2 = t.left) ∧ ∃ e ∈ bs, e.2 = t.right := by
  induction as generalizing bs with
  | nil => simp [ofEntries] at h
  | cons e as ih =>
    cases bs with
    | nil => simp [ofEntries] at h
    | cons f bs =>
      unfold ofEntries at h
      split at h
      · rcases List.mem_cons.mp h with rfl | later
        · exact ⟨rfl, ⟨e, by simp⟩, ⟨f, by simp⟩⟩
        · obtain ⟨sides, ⟨a, ha, left⟩, b, hb, right⟩ := ih later
          exact ⟨sides, ⟨a, by simp [ha], left⟩, b, by simp [hb], right⟩
      · simp at h

inductive Next (s : Store) : Comparison → Comparison → Prop where
  | left {sides : Value.Sides} {c : Nat} {b : Value} :
      Next s ⟨sides, .shared c, b⟩ ⟨sides.enterLeft c, (s.cell c).value, b⟩
  | right {sides : Value.Sides} {a : Value} {c : Nat} (own : a.isShared = false) :
      Next s ⟨sides, a, .shared c⟩ ⟨sides.enterRight c, a, (s.cell c).value⟩
  | part {sides : Value.Sides} {a b : Value} {u : Comparison} (own : a.isShared = false)
      (known : u.sides = sides.descend) (left : a.Part u.left) (right : b.Part u.right) :
      Next s ⟨sides, a, b⟩ u

theorem Asks.next (h : Asks s t u) : Next s t u := by
  obtain ⟨before, after, split, -⟩ := h
  have mem : u ∈ needs s t := by simp [split]
  unfold needs at mem
  split at mem
  · split at mem
    · simp at mem
    · rw [List.mem_singleton.mp mem]
      exact .left
  · next sides a c own =>
    split at mem
    · simp at mem
    · rw [List.mem_singleton.mp mem]
      refine .right ?_
      cases a with
      | shared d => exact absurd rfl (own d)
      | _ => rfl
  · obtain ⟨known, left, right⟩ := mem_ofParts mem
    exact .part rfl known (.item left) (.item right)
  · split at mem
    · obtain ⟨known, ⟨e, he, left⟩, f, hf, right⟩ := mem_ofEntries mem
      exact .part rfl known (left ▸ .entry he) (right ▸ .entry hf)
    · simp at mem
  · split at mem
    · obtain ⟨known, left, right⟩ := mem_ofParts mem
      exact .part rfl known (.argument left) (.argument right)
    · simp at mem
  · simp at mem

theorem Near.refl (s : Store) (t : Comparison) : Near s t t where
  left := Or.inl .refl
  right := Or.inr (Or.inl .refl)
  leftPlace := by simp [Places]
  rightPlace := by simp [Places]

theorem Near.next {v : Comparison} (h : Near s t u) (step : Next s u v) : Near s t v := by
  cases step with
  | left =>
    refine ⟨.cell s t _, h.right, ?_, h.rightPlace⟩
    exact Or.inr ⟨_, h.left, rfl⟩
  | right =>
    refine ⟨h.left, .cell s t _, h.leftPlace, ?_⟩
    exact Or.inr ⟨_, h.right, rfl⟩
  | part own known left right =>
    refine ⟨h.left.part left, h.right.part right, ?_, ?_⟩
    all_goals simp [known, Value.Sides.descend, Places]

theorem finite_reached (s : Store) (t : Comparison) : {u | ReflTransGen (Asks s) t u}.Finite := by
  refine (finite_near s t).subset fun u reached => ?_
  induction reached with
  | refl => exact .refl s t
  | tail _ step ih => exact ih.next step.next

/-- A comparison comes to an end, with an answer or an error, just if in its course it never comes
back to a comparison that it is in the midst of. -/
theorem settles_iff_not_comesBack :
    Settles (fun n => run s n t) ↔ ¬ ComesBack (Asks s) t := by
  rw [settles_iff_acc, acc_iff_not_comesBack (finite_reached s t)]

end Comparison

inductive Value.Leads (s : Store) : Value → Value → Prop where
  | part {v w : Value} (part : v.Part w) : Leads s v w
  | behind {c : Nat} : Leads s (.shared c) (s.cell c).value

namespace Value

variable {s : Store}

theorem finite_leads (s : Store) (v : Value) : {w | ReflTransGen (Leads s) v w}.Finite := by
  refine (Comparison.Within.finite s (.between v v)).subset fun w reached => ?_
  induction reached with
  | refl => exact Or.inl .refl
  | tail _ step ih =>
    cases step with
    | part part => exact ih.part part
    | behind => exact .cell s _ _

/-- Where no cell holds an alias, a comparison ends if one of the two values leads nowhere back. -/
theorem acc_next (flat : ∀ c, (s.cell c).value.isShared = false) {a b : Value}
    (h : Acc (fun w v => Leads s v w) a ∨ Acc (fun w v => Leads s v w) b) (sides : Sides) :
    Acc (fun u t => Comparison.Next s t u) ⟨sides, a, b⟩ := by
  rcases h with left | right
  · induction left generalizing sides b with
    | intro a _ ih =>
      have own (sides : Sides) (b : Value) (own : b.isShared = false) :
          Acc (fun u t => Comparison.Next s t u) ⟨sides, a, b⟩ := by
        refine ⟨_, fun u next => ?_⟩
        cases next with
        | left => exact ih _ .behind _
        | right => cases own
        | part _ _ left _ => exact ih _ (.part left) _
      cases aliased : b.isShared with
      | false => exact own sides b aliased
      | true =>
        refine ⟨_, fun u next => ?_⟩
        cases next with
        | left => exact ih _ .behind _
        | right => exact own _ _ (flat _)
        | part _ _ left _ => exact ih _ (.part left) _
  · induction right generalizing sides a with
    | intro b _ ih =>
      have own (sides : Sides) (a : Value) (own : a.isShared = false) :
          Acc (fun u t => Comparison.Next s t u) ⟨sides, a, b⟩ := by
        refine ⟨_, fun u next => ?_⟩
        cases next with
        | left => cases own
        | right => exact ih _ .behind _
        | part _ _ _ right => exact ih _ (.part right) _
      cases aliased : a.isShared with
      | false => exact own sides a aliased
      | true =>
        refine ⟨_, fun u next => ?_⟩
        cases next with
        | left => exact own _ _ (flat _)
        | right => exact ih _ .behind _
        | part _ _ _ right => exact ih _ (.part right) _

theorem equal_settles (flat : ∀ c, (s.cell c).value.isShared = false) {a b : Value}
    (h : ¬ ComesBack (Leads s) a ∨ ¬ ComesBack (Leads s) b) :
    Settles fun n => equal s n a b := by
  rw [← acc_iff_not_comesBack (finite_leads s a), ← acc_iff_not_comesBack (finite_leads s b)] at h
  refine Comparison.settles_iff_acc (t := .between a b).mpr ?_
  exact Subrelation.accessible (fun asks => asks.next) (acc_next flat h _)

end Value

namespace CoreFn

variable {s : Store} {item : Value} {vs : List Value}

theorem occurs_mono {n k : Nat} (known : occurs s n item vs ≠ .error .outOfFuel) (le : n ≤ k) :
    occurs s k item vs = occurs s n item vs := by
  induction vs with
  | nil => rfl
  | cons v rest ih =>
    have first : v.equal s n item ≠ .error .outOfFuel := by
      intro dry
      simp [occurs, dry, bind, Except.bind] at known
    have more : v.equal s k item = v.equal s n item :=
      Comparison.run_mono (t := .between v item) first le
    rw [occurs, occurs, more]
    cases answer : v.equal s n item with
    | error h => rfl
    | ok same =>
      cases same with
      | true => rfl
      | false =>
        rw [occurs, answer] at known
        exact ih known

theorem occurs_settles_iff : Settles (fun n => occurs s n item vs) ↔
    ∀ before v after, vs = before ++ v :: after →
      (∀ u ∈ before, ∃ n, u.equal s n item = .ok false) → Settles fun n => v.equal s n item := by
  rw [settles_iff_known occurs_mono]
  induction vs with
  | nil => simp [occurs]
  | cons v rest ih =>
    constructor
    · rintro ⟨n, known⟩ before u after split different
      have first : v.equal s n item ≠ .error .outOfFuel := by
        intro dry
        simp [occurs, dry, bind, Except.bind] at known
      cases before with
      | nil =>
        cases split
        exact Comparison.settles_iff (t := .between v item).mpr ⟨n, first⟩
      | cons w before =>
        cases split
        obtain ⟨k, no⟩ := different v (by simp)
        have no : v.equal s n item = .ok false := Comparison.run_eq (t := .between v item) no first
        refine ih.mp ⟨n, ?_⟩ before u after rfl fun w hw => different w (by simp [hw])
        simpa [occurs, no, bind, Except.bind] using known
    · intro ends
      obtain ⟨n, known⟩ := Comparison.settles_iff (t := .between v item).mp
        (ends [] v rest rfl (by simp))
      cases answer : v.equal s n item with
      | error halt =>
        have known : Value.equal s n v item ≠ .error .outOfFuel := known
        rw [answer] at known
        exact ⟨n, by simpa [occurs, answer, bind, Except.bind] using known⟩
      | ok same =>
        cases same with
        | true => exact ⟨n, by simp [occurs, answer, bind, Except.bind, pure, Except.pure]⟩
        | false =>
          obtain ⟨k, others⟩ := ih.mpr fun before u after split different =>
            ends (v :: before) u after (by simp [split]) (by
              intro w hw
              rcases List.mem_cons.mp hw with rfl | later
              · exact ⟨n, answer⟩
              · exact different w later)
          have more : v.equal s (max n k) item = .ok false := by
            rw [← answer]
            exact Comparison.run_mono (t := .between v item) known (Nat.le_max_left n k)
          refine ⟨max n k, ?_⟩
          rw [occurs, more]
          exact occurs_mono others (Nat.le_max_right n k) ▸ others

end CoreFn

/-- When comparing two values comes to an end, with an answer or an error: if and only if in its
course the comparison never comes back to one that it is in the midst of. So does a search through
an array, whose comparisons are made one after another until one finds the item. Where no cell holds
an alias, as scripts leave them, a comparison ends if one of the values does not lead to itself. -/
theorem comparison_ends_unless_it_comes_back (s : Store) :
    (∀ a b, Settles (fun n => Value.equal s n a b) ↔
      ¬ ComesBack (Comparison.Asks s) (.between a b)) ∧
    (∀ mode items item,
      Settles (fun n => (CoreFn.arrayContains.apply mode s n [.array items, item]).result) ↔
        ∀ before v after, items = before ++ v :: after →
          (∀ u ∈ before, ∃ n, Value.equal s n u item = .ok false) →
            ¬ ComesBack (Comparison.Asks s) (.between v item)) ∧
    ((∀ c, (s.cell c).value.isShared = false) → ∀ a b,
      ¬ ComesBack (Value.Leads s) a ∨ ¬ ComesBack (Value.Leads s) b →
        Settles fun n => Value.equal s n a b) := by
  have pairs (a b : Value) : Settles (fun n => Value.equal s n a b) ↔
      ¬ ComesBack (Comparison.Asks s) (.between a b) :=
    Comparison.settles_iff_not_comesBack (t := .between a b)
  refine ⟨pairs, ?_, fun flat a b => Value.equal_settles flat⟩
  intro mode items item
  have answer (n : Nat) : (CoreFn.arrayContains.apply mode s n [.array items, item]).result =
      (CoreFn.occurs s n item items).map .bool := rfl
  have injective : Function.Injective Value.bool := fun _ _ same => by cases same; rfl
  simp only [answer, Settles.map_iff injective, CoreFn.occurs_settles_iff, pairs]

def knotStore : Store := ⟨#[⟨.fn (closureName 0) [.shared 0], 0, false⟩]⟩

theorem comparison_ends_beside_knot :
    (∀ c, (knotStore.cell c).value.isShared = false) ∧
      ¬ ComesBack (Value.Leads knotStore) (.array [.unit]) ∧
      Settles fun n => Value.equal knotStore n (.array [.unit]) (.shared 0) := by
  have flat : ∀ c, (knotStore.cell c).value.isShared = false := by
    intro c
    cases c <;> rfl
  have ends : ¬ ComesBack (Value.Leads knotStore) (.array [.unit]) := by
    refine not_comesBack_of_acc ⟨_, fun v leads => ?_⟩
    obtain ⟨part⟩ := leads
    cases part with
    | item mem =>
      rw [List.mem_singleton.mp mem]
      refine ⟨_, fun w leads => ?_⟩
      obtain ⟨part⟩ := leads
      cases part
  exact ⟨flat, ends,
    (comparison_ends_unless_it_comes_back knotStore).2.2 flat _ (.shared 0) (Or.inl ends)⟩

/-- The script `let f = 0; f = || f;`. -/
def knotScript : Script :=
  (Engine.standard.compile false [Text.lit "let f = 0; f = || f;"] 0).1.toOption.getD {}

def knotStage : Stage := ending (Engine.standard.run knotScript { world := {} })

def Value.carries? : Value → Option (Text × Nat)
  | .fn name [.shared c] => some (name, c)
  | _ => none

theorem Value.eq_of_carries? {v : Value} {name : Text} {c : Nat}
    (h : v.carries? = some (name, c)) : v = .fn name [.shared c] := by
  unfold Value.carries? at h
  split at h
  · cases h
    rfl
  · cases h

theorem Value.equalAt_knot {s : Store} {c : Nat} {name : Text}
    (cell : s.cell c = ⟨.fn name [.shared c], 0, false⟩) (n : Nat) (sides : Sides) :
    equalAt s n sides (.fn name [.shared c]) (.fn name [.shared c]) = .error .outOfFuel := by
  have read : s.read c [] .nowhere = .ok (.fn name [.shared c]) := by simp [Store.read, cell]
  induction n using Nat.strongRecOn generalizing sides with
  | ind n ih =>
    -- Three steps lead back: into the pointers, and behind the alias on either side.
    rcases n with _ | _ | _ | n
    · rfl
    · simp [equalAt, allEqual, bind, Except.bind]
    · simp [equalAt, allEqual, read, bind, Except.bind]
    · simp [equalAt, allEqual, read, bind, Except.bind, ih n (by omega)]

/-- A closure stored in the variable that it captures is never compared with itself, nor found in an
array that holds it. -/
theorem knotted_closure_is_never_compared :
    knotStage.scope.map (fun e => (e.name, e.value.cell?)) = [(Text.lit "f", some 0)] ∧
      ∃ v, knotStage.world.store.cell 0 = ⟨v, 0, false⟩ ∧ v = .fn (closureName 0) [.shared 0] ∧
        (∀ n, Value.equal knotStage.world.store n v v = .error .outOfFuel) ∧
        ∀ mode n, (CoreFn.arrayContains.apply mode knotStage.world.store n
          [.array [v], v]).result = .error .outOfFuel := by
  have scope : knotStage.scope.map (fun e => (e.name, e.value.cell?)) =
      [(Text.lit "f", some 0)] := by decide +kernel
  have content : (knotStage.world.store.cell 0).value.carries? = some (closureName 0, 0) := by
    decide +kernel
  have free : (knotStage.world.store.cell 0).readers = 0 ∧
      (knotStage.world.store.cell 0).writer = false := by decide +kernel
  have cell : knotStage.world.store.cell 0 = ⟨.fn (closureName 0) [.shared 0], 0, false⟩ := by
    cases there : knotStage.world.store.cell 0 with
    | mk v readers writer =>
      rw [there] at content free
      obtain ⟨rfl, rfl⟩ := free
      exact congrArg (Cell.mk · 0 false) (Value.eq_of_carries? content)
  have never (n : Nat) := Value.equalAt_knot cell n { same := false }
  refine ⟨scope, _, cell, rfl, never, fun mode n => ?_⟩
  change (CoreFn.occurs knotStage.world.store n (.fn (closureName 0) [.shared 0]) [_]).map Value.bool = _
  rw [CoreFn.occurs, show Value.equal knotStage.world.store n _ _ = _ from never n]
  rfl

end Scripting

end
