import Scripting.Proofs.Contract.Stage

/-
Where aliases can be. Variables hold them, and function pointers carry them among their arguments;
nothing else does: no array, no map, no cell, and no result of an expression. So what is behind an
alias is never another alias, and looking at a value always comes to an end.
-/
namespace Scripting

def Value.cell? : Value → Option Nat
  | .shared c => some c
  | _ => none

/-- A value that is no alias and holds none, but among the arguments of function pointers. -/
inductive Value.Proper : Value → Prop where
  | leaf {v : Value} (h : v.isLeaf = true) : Proper v
  | array {items : List Value} (h : ∀ v ∈ items, Proper v) : Proper (.array items)
  | map {entries : List (Text × Value)} (h : ∀ e ∈ entries, Proper e.2) : Proper (.map entries)
  | fn {name : Text} {curry : List Value} (h : ∀ v ∈ curry, v.isShared = false → Proper v) :
      Proper (.fn name curry)

namespace Value.Proper

theorem array_iff (items : List Value) : Proper (.array items) ↔ ∀ v ∈ items, Proper v := by
  constructor
  · intro h
    cases h with
    | leaf h => cases h
    | array h => exact h
  · exact .array

theorem map_iff (entries : List (Text × Value)) :
    Proper (.map entries) ↔ ∀ e ∈ entries, Proper e.2 := by
  constructor
  · intro h
    cases h with
    | leaf h => cases h
    | map h => exact h
  · exact .map

theorem fn_iff (name : Text) (curry : List Value) :
    Proper (.fn name curry) ↔ ∀ v ∈ curry, v.isShared = true ∨ Proper v := by
  constructor
  · intro h
    cases h with
    | leaf h => cases h
    | fn h =>
      intro v hv
      cases shared : v.isShared with
      | true => exact Or.inl rfl
      | false => exact Or.inr (h v hv shared)
  · intro h
    refine .fn fun v hv unshared => ?_
    rcases h v hv with shared | proper
    · rw [unshared] at shared
      cases shared
    · exact proper

theorem unshared {v : Value} (h : Proper v) : v.isShared = false := by
  cases h with
  | @leaf v h => cases v <;> first | rfl | cases h
  | array h => rfl
  | map h => rfl
  | fn h => rfl

end Value.Proper

def Kind.proper : Kind where
  plain := Value.Proper
  code _ := True
  leaf _ h := .leaf h
  array := Value.Proper.array_iff
  map := Value.Proper.map_iff
  fn := Value.Proper.fn_iff
  codes _ := trivial

def Settles {α : Type} (reading : Nat → Except Halt α) : Prop :=
  ∃ effort answer, answer ≠ .error .outOfFuel ∧ ∀ fuel, effort ≤ fuel → reading fuel = answer

def Succeeds {α : Type} (reading : Nat → Except Halt α) : Prop :=
  ∃ effort a, ∀ fuel, effort ≤ fuel → reading fuel = .ok a

namespace Succeeds

variable {α β : Type}

theorem settles {reading : Nat → Except Halt α} (h : Succeeds reading) : Settles reading := by
  obtain ⟨effort, a, done⟩ := h
  exact ⟨effort, .ok a, by simp, done⟩

theorem of_succ {reading : Nat → Except Halt α} (effort : Nat) (a : α)
    (h : ∀ n, effort ≤ n → reading (n + 1) = .ok a) : Succeeds reading := by
  refine ⟨effort + 1, a, ?_⟩
  intro fuel enough
  obtain ⟨n, rfl⟩ : ∃ n, fuel = n + 1 := ⟨fuel - 1, by omega⟩
  exact h n (by omega)

theorem mapM {reading : α → Nat → Except Halt β} {xs : List α} (h : ∀ x ∈ xs, Succeeds (reading x)) :
    ∃ effort ys, ∀ fuel, effort ≤ fuel → xs.mapM (fun x => reading x fuel) = .ok ys := by
  induction xs with
  | nil => exact ⟨0, [], fun _ _ => rfl⟩
  | cons x rest ih =>
    obtain ⟨first, y, hy⟩ := h x List.mem_cons_self
    obtain ⟨others, ys, hys⟩ := ih fun x hx => h x (List.mem_cons_of_mem _ hx)
    refine ⟨max first others, y :: ys, ?_⟩
    intro fuel enough
    rw [List.mapM_cons, hy fuel (by omega), hys fuel (by omega)]
    rfl

end Succeeds

/-- An alias takes one step more than what it stands for. -/
theorem Settles.through {α : Type} {s : Store} {c : Nat} (reading : Value → Nat → Except Halt α)
    (step : ∀ n, reading (.shared c) (n + 1) = (do reading (← s.read c [] .nowhere) n))
    (content : Settles (reading (s.cell c).value)) : Settles (reading (.shared c)) := by
  obtain ⟨effort, answer, known, settled⟩ := content
  by_cases locked : (s.cell c).writer = true
  · have refused : s.read c [] .nowhere = .error (.cause (.dataRace []) .nowhere) := if_pos locked
    refine ⟨1, .error (.cause (.dataRace []) .nowhere), by simp [Halt.cause], ?_⟩
    intro fuel enough
    obtain ⟨n, rfl⟩ : ∃ n, fuel = n + 1 := ⟨fuel - 1, by omega⟩
    rw [step, refused]
    rfl
  · have read : s.read c [] .nowhere = .ok (s.cell c).value := if_neg locked
    refine ⟨effort + 1, answer, known, ?_⟩
    intro fuel enough
    obtain ⟨n, rfl⟩ : ∃ n, fuel = n + 1 := ⟨fuel - 1, by omega⟩
    rw [step, read]
    exact settled n (by omega)

namespace Value.Proper

variable (s : Store)

theorem debugText {v : Value} (h : v.Proper) : Succeeds fun fuel => v.debugText s fuel := by
  induction h with
  | @leaf v h =>
    cases v with
    | array | map | fn | shared => cases h
    | _ => exact .of_succ 0 _ fun _ _ => rfl
  | array h ih =>
    obtain ⟨effort, texts, shown⟩ := Succeeds.mapM ih
    let text := Text.lit "[" ++ Text.join (Text.lit ", ") texts ++ Text.lit "]"
    refine .of_succ effort text fun n enough => ?_
    rw [Value.debugText, shown n enough]
    rfl
  | @map entries h ih =>
    have entry : ∀ e ∈ entries, Succeeds fun fuel => (do
        return Quoted.write Quoted.doubleQuote e.1 ++ Text.lit ": " ++
          (← Value.debugText s fuel e.2) : Except Halt Text) := by
      intro e he
      obtain ⟨effort, text, shown⟩ := ih e he
      refine ⟨effort, Quoted.write Quoted.doubleQuote e.1 ++ Text.lit ": " ++ text, ?_⟩
      intro fuel enough
      have shown : Value.debugText s fuel e.2 = .ok text := shown fuel enough
      dsimp only
      rw [shown]
      rfl
    obtain ⟨effort, texts, shown⟩ := Succeeds.mapM entry
    let text := Text.lit "#\x7b" ++ Text.join (Text.lit ", ") texts ++ Text.lit "\x7d"
    refine .of_succ effort text fun n enough => ?_
    rw [Value.debugText, shown n enough]
    rfl
  | fn h => exact .of_succ 0 _ fun _ _ => rfl

theorem displayText {v : Value} (h : v.Proper) : Succeeds fun fuel => v.displayText s fuel := by
  obtain ⟨effort, text, shown⟩ := h.debugText s
  -- Containers are shown as `debug` shows them.
  have contained : (∀ n, v.displayText s (n + 1) = v.debugText s (n + 1)) →
      Succeeds fun fuel => v.displayText s fuel := by
    intro same
    refine .of_succ effort text fun n enough => ?_
    rw [same]
    exact shown (n + 1) (by omega)
  cases h with
  | @leaf v h =>
    cases v with
    | array | map | fn | shared => cases h
    | _ => exact .of_succ 0 _ fun _ _ => rfl
  | array h => exact contained fun _ => rfl
  | map h => exact contained fun _ => rfl
  | fn h => exact .of_succ 0 _ fun _ _ => rfl

theorem flatten {v : Value} (h : v.Proper) : Succeeds fun fuel => s.flatten fuel v := by
  have own := h.unshared
  cases v with
  | shared c => cases own
  | _ => exact .of_succ 0 _ fun _ _ => rfl

theorem typeOf {v : Value} (h : v.Proper) : Succeeds fun fuel => s.typeOf fuel v := by
  have own := h.unshared
  cases v with
  | shared c => cases own
  | _ => exact .of_succ 0 _ fun _ _ => rfl

end Value.Proper

structure Value.Readable (s : Store) (v : Value) : Prop where
  flatten : Settles fun fuel => s.flatten fuel v
  typeOf : Settles fun fuel => s.typeOf fuel v
  displayText : Settles fun fuel => v.displayText s fuel
  debugText : Settles fun fuel => v.debugText s fuel

/-- An alias stands for a proper value, so it can be read as well as that. -/
theorem Value.readable {s : Store} (cells : ∀ c, (s.cell c).value.Proper) {v : Value}
    (hv : Kind.proper.passes v) : v.Readable s := by
  rcases hv with shared | proper
  · cases v with
    | shared c =>
      have content := cells c
      exact ⟨.through (fun v fuel => s.flatten fuel v) (fun _ => rfl) (content.flatten s).settles,
        .through (fun v fuel => s.typeOf fuel v) (fun _ => rfl) (content.typeOf s).settles,
        .through (fun v fuel => v.displayText s fuel) (fun _ => rfl) (content.displayText s).settles,
        .through (fun v fuel => v.debugText s fuel) (fun _ => rfl) (content.debugText s).settles⟩
    | _ => cases shared
  · have own : v.Proper := proper
    exact ⟨(own.flatten s).settles, (own.typeOf s).settles, (own.displayText s).settles,
      (own.debugText s).settles⟩

namespace Package

theorem fair_install (K : Stock) {m : Module} (h : m.Fair K) {offers : List Offer}
    (own : ∀ o ∈ offers, ∀ tag, o.2.2 ≠ .tagged tag) : (install m offers).Fair K := by
  induction offers generalizing m with
  | nil => exact h
  | cons offer rest ih =>
    obtain ⟨name, params, f⟩ := offer
    refine ih ?_ fun o ho => own o (List.mem_cons_of_mem _ ho)
    refine .intro ?_ h.values h.modules
    intro g hg
    rcases Dict.mem_insert hg with rfl | old
    · refine ⟨?_, ?_⟩
      · intro tag body
        cases body
        exact absurd rfl (own _ List.mem_cons_self tag)
      · intro g body
        cases body
    · exact h.functions g old

theorem fair_empty (K : Stock) : Module.Fair K {} := .intro (by simp) (by simp) (by simp)

theorem fair_coreModule (K : Stock) : coreModule.Fair K := by
  refine fair_install K (fair_empty K) ?_
  have cores : coreOffers.all (fun o => o.2.2 matches .core _) = true := by decide +kernel
  intro o ho tag tagged
  have core := List.all_eq_true.mp cores o ho
  rw [tagged] at core
  cases core

end Package

namespace Engine

theorem natives_standard (K : Stock) : ∀ m ∈ standard.nativeModules, m.Fair K := by
  intro m hm
  rcases List.mem_cons.mp hm with rfl | package
  · exact Package.fair_empty K
  · rw [List.mem_singleton.mp package]
    exact Package.fair_coreModule K

end Engine

/-- With natives that hand out no aliases of their own, as those of the standard package: every
expression keeps aliases where they may be and gives none; from a stage where they are there, a run
only passes machines where they are there; and on such a machine everything can be read. -/
theorem aliases_stay_shallow (engine : Engine)
    (natives : ∀ m ∈ engine.nativeModules, m.Fair Kind.proper) :
    (∀ fuel e m, m.Tidy Kind.proper →
      Ends (fun v n => v.Proper ∧ n.Tidy Kind.proper) (fun _ n => n.Tidy Kind.proper)
        (Eval.evalAt engine fuel e m)) ∧
    (∀ script s, s.Tidy Kind.proper →
      (∀ m, engine.Passes (Engine.runBy script) s m → m.Tidy Kind.proper) ∧
      Ends (fun v t => v.Proper ∧ t.Tidy Kind.proper) (fun _ t => t.Tidy Kind.proper)
        (engine.run script s)) ∧
    (∀ (m : Machine) v, m.Tidy Kind.proper → Kind.proper.passes v → v.Readable m.store) := by
  let D := Discipline.free engine Kind.proper
  let C := Contract.strict D natives
  have evaluators : ∀ fuel, C.Evaluators (Eval.evaluator engine fuel) (Eval.evaluator engine fuel) :=
    Eval.evaluators_inMode C
  refine ⟨?_, ?_, fun m v hm hv => Value.readable hm.world.cells hv⟩
  · intro fuel e m hm
    have kept := (evaluators fuel).eval e m ⟨hm, trivial⟩
    exact kept.ends.mono (fun v n h => ⟨h.2, h.1.2.1⟩) (fun _ n h => h.1.2.1)
  · intro script s hs
    have start : C.Inv (s.start script.library 0) := ⟨hs.start script 0, trivial⟩
    constructor
    · intro m passes
      have inv : C.Inv m := passes.inv fun ev' hev => ⟨_, _, Contract.runBy_staging hev start⟩
      exact inv.1
    · rw [← Engine.runBy_evaluator]
      have kept := Contract.runBy_staging (evaluators ampleFuel) start
      refine kept.ends.mono ?_ ?_
      · rintro v t ⟨n, stride, rfl, hv⟩
        exact ⟨hv, stride.2.1.stage⟩
      · rintro h t ⟨n, stride, rfl, -⟩
        exact stride.2.1.stage

/-- The script `f; x` on a stage where `x` is an alias of an array and `f` a pointer that carries the
same alias. -/
def aliasedScript : Script where
  statements := [.expr .nowhere (.var .nowhere (Text.lit "f") []),
    .expr .nowhere (.var .nowhere (Text.lit "x") [])]

def aliasedStage : Stage where
  world := { store := ⟨#[⟨.array [.unit], 0, false⟩]⟩ }
  scope := [⟨Text.lit "f", .fn (Text.lit "g") [.shared 0], false, none⟩,
    ⟨Text.lit "x", .shared 0, false, none⟩]

theorem tidy_aliasedStage : aliasedStage.Tidy Kind.proper where
  world := by
    refine ⟨?_, by simp [aliasedStage], by simp [aliasedStage]⟩
    intro c
    cases c with
    | zero =>
      refine .array fun v hv => ?_
      rw [List.mem_singleton.mp hv]
      exact .leaf rfl
    | succ c => exact .leaf rfl
  scope := by
    intro e he
    rcases List.mem_cons.mp he with rfl | rest
    · refine Or.inr (.fn fun v hv unshared => ?_)
      rw [List.mem_singleton.mp hv] at unshared
      cases unshared
    · rw [List.mem_singleton.mp rest]
      exact Or.inl rfl
  this v none := by cases none

theorem aliases_stay_shallow_standard :
    (∀ m ∈ Engine.standard.nativeModules, m.Fair Kind.proper) ∧ aliasedStage.Tidy Kind.proper ∧
      ∃ m, Engine.standard.Passes (Engine.runBy aliasedScript) aliasedStage m ∧ m.Tidy Kind.proper := by
  have natives := Engine.natives_standard Kind.proper
  have passes := Engine.passes_start Engine.standard aliasedScript rfl aliasedStage
  have shallow := (aliases_stay_shallow Engine.standard natives).2.1 aliasedScript aliasedStage
    tidy_aliasedStage
  exact ⟨natives, tidy_aliasedStage, _, passes, shallow.1 _ passes⟩

end Scripting
