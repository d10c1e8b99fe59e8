import Scripting.Proofs.Parsing.Checks
import Scripting.Proofs.Regime.Sizes

/-
How large stored values get. A check follows every literal, every native call, every declaration and
every assignment of a value, but none follows the entry that an assignment to an element makes. So
arrays are always within their limit, while strings and maps are as long as scripts assign to whole
variables only.
-/
namespace Scripting

def Value.parts : Value → List Value
  | .array items => items
  | .map entries => entries.map (·.2)
  | .fn _ curry => curry
  | _ => []

inductive Value.Within (l : Limits) : Value → Prop where
  | intro {v : Value} (here : v.SizeFits l) (parts : ∀ p ∈ v.parts, Value.Within l p) :
      Value.Within l v

structure Stage.Within (l : Limits) (s : Stage) : Prop where
  scope : ∀ e ∈ s.scope, e.value.Within l
  cells : ∀ c, (s.world.store.cell c).value.Within l

/-- Unless it is refused because something got too large, it leaves only values within the limits. -/
def StaysWithin (l : Limits) : EStateM.Result Halt Stage Value → Prop :=
  Ends (fun v s => v.Within l ∧ s.Within l) (fun h s => h.isTooLarge = true ∨ s.Within l)

def Rule.wholeOnly : Rule
  | _, .stmt (.assign _ _ target _) => target.isPart = false
  | _, _ => True

def Rule.shortKeys (limit : Nat) : Rule
  | _, .expr (.map _ entries) => ∀ e ∈ entries, Fits limit (Utf8.length e.1)
  | _, _ => True

def Engine.SourcesObey (engine : Engine) (sources : Dict Shelf Text) (rule : Rule) : Prop :=
  ∀ e ∈ sources, ∀ nextClosure script next,
    engine.compile false [e.2] nextClosure = (.ok script, next) → script.Obeys rule

namespace Value

variable {l : Limits}

theorem within_of_isAtom {v : Value} (h : v.isAtom = true) : v.Within l := by
  have alone : v.SizeFits l ∧ v.parts = [] := by
    cases v
    all_goals first
      | exact ⟨trivial, rfl⟩
      | cases h
  refine .intro alone.1 fun p hp => ?_
  rw [alone.2] at hp
  cases hp

theorem within_of_isShared {v : Value} (h : v.isShared = true) : v.Within l := by
  cases v with
  | shared c => exact .intro trivial fun _ never => by cases never
  | _ => cases h

theorem Tame.within {v : Value} (h : v.Tame l) : v.Within l := by
  induction h with
  | atom h => exact within_of_isAtom h
  | string fits => exact .intro fits fun _ never => by cases never
  | array fits tame ih => exact .intro fits ih
  | map fits ordered keys tame ih =>
    refine .intro fits fun p hp => ?_
    obtain ⟨e, he, rfl⟩ := List.mem_map.mp hp
    exact ih e he
  | fn own lent ih =>
    refine .intro trivial fun v hv => ?_
    cases shared : v.isShared with
    | false => exact ih v hv shared
    | true => exact within_of_isShared shared

end Value

section

variable {engine : Engine} {l : Limits}

theorem Utf8.length_le (t : Text) : Utf8.length t ≤ t.length := List.length_filter_le _ _

theorem Engine.compile_obeys {asExpression : Bool} {pieces : List Text} {nextClosure next : Nat}
    {script : Script} (h : engine.compile asExpression pieces nextClosure = (.ok script, next)) :
    script.Obeys (Grammar.rule (Token.Short engine.limits.string)) := by
  refine Grammar.parse_obeys (fun token pos ht => ?_) h
  exact engine.dialect.tokens_short pieces _ ht

/-- What a script must look like for the limits: without element assignments unless strings and maps
have no limit, and with short keys unless strings have none. -/
theorem Script.Obeys.sizes (checks : engine.Checks l) {script : Script}
    (obeys : script.Obeys (Grammar.rule (Token.Short engine.limits.string)))
    (whole : l.string = 0 ∧ l.map = 0 ∨ script.Obeys Rule.wholeOnly)
    (keys : l.string = 0 ∨ script.Obeys (Rule.shortKeys l.string)) :
    script.Obeys (Regime.sizes checks).rule := by
  have room : script.Obeys fun looping c =>
      (Regime.sizes checks).roomy ∨ Rule.wholeOnly looping c := by
    rcases whole with ⟨strings, maps⟩ | whole
    · exact obeys.mono fun _ _ _ => Or.inl ⟨fun _ => Or.inl strings, fun _ => Or.inl maps⟩
    · exact whole.mono fun _ _ h => Or.inr h
  have short : script.Obeys (Rule.shortKeys l.string) := by
    rcases keys with strings | keys
    · refine obeys.mono fun _ c _ => ?_
      unfold Rule.shortKeys
      split
      · exact fun _ _ => Or.inl strings
      · trivial
    · exact keys
  have literal : ∀ t : Text, Fits engine.limits.string t.length → Fits l.string (Utf8.length t) := by
    intro t fits
    have fewer := Utf8.length_le t
    have same := checks.string
    unfold Fits at fits ⊢
    omega
  refine ((obeys.and room).and short).mono ?_
  rintro looping c ⟨⟨own, room⟩, short⟩
  cases c with
  | expr e =>
    cases e with
    | string pos t => exact .string (literal t own)
    | map pos entries => exact fun e he => .string (short e he)
    | closure pos name captured => exact Or.inr (Or.inl own)
    | _ => trivial
  | stmt s =>
    cases s with
    | assign pos operator target value => exact room.symm
    | breakLoop pos => exact own
    | continueLoop pos => exact own
    | _ => trivial

theorem World.sound_sizes (checks : engine.Checks l) {sources : Dict Shelf Text}
    (obey : engine.SourcesObey sources (Regime.sizes checks).rule) (nextClosure : Nat) :
    World.Sound (Regime.sizes checks) { sources, nextClosure } where
  cells c := by
    have unused : ({} : Store).cell c = default := by simp [Store.cell]
    rw [unused]
    exact .atom rfl
  table _ never := by cases never
  loaded _ never := by cases never
  sources := obey

theorem Engine.run_staysWithin (checks : engine.Checks l) {script : Script}
    (obeys : script.Obeys (Regime.sizes checks).rule) {sources : Dict Shelf Text}
    (obey : engine.SourcesObey sources (Regime.sizes checks).rule) (nextClosure : Nat) :
    StaysWithin l (engine.run script { world := { sources, nextClosure } }) := by
  have start : Stage.Sound (Regime.sizes checks) { world := { sources, nextClosure } } :=
    ⟨World.sound_sizes checks obey nextClosure, fun _ never => (by cases never),
      fun _ never => (by cases never)⟩
  have within : ∀ s : Stage, s.Sound (Regime.sizes checks) → s.Within l := by
    intro s hs
    refine ⟨fun e he => ?_, fun c => (hs.world.cells c).within⟩
    rcases hs.scope e he with shared | plain
    · exact Value.within_of_isShared shared
    · exact Value.Tame.within plain
  refine (Regime.run_staging obeys start).mono ?_ ?_
  · exact fun v s hs => ⟨Value.Tame.within hs.2, within s hs.1⟩
  · exact fun h s hs => hs.2.imp (fun spoilt => spoilt.1) (within s)

end

/-- On the core package, from an empty scope, and however early the host stops it: a compiled script
keeps all arrays within their limit. If it assigns to whole variables only, and so do the modules that
it imports, then all maps are within theirs; and if the keys of its map literals and the names of
types are short enough as strings, then so are all strings. -/
theorem sizes_stay_within (engine : Engine) (globals : engine.globals = {})
    (packages : engine.packages = [Package.coreModule]) {asExpression : Bool} {pieces : List Text}
    {nextClosure next : Nat} {script : Script}
    (compiled : engine.compile asExpression pieces nextClosure = (.ok script, next))
    (sources : Dict Shelf Text) (stop : Option Nat) :
    let ran := { engine with progress := stop }.run script { world := { sources, nextClosure := next } }
    StaysWithin { array := engine.limits.array } ran ∧
    (script.Obeys Rule.wholeOnly → engine.SourcesObey sources Rule.wholeOnly →
      StaysWithin { array := engine.limits.array, map := engine.limits.map } ran ∧
      (script.Obeys (Rule.shortKeys engine.limits.string) →
        engine.SourcesObey sources (Rule.shortKeys engine.limits.string) →
        (∀ t, Fits engine.limits.string (Utf8.length (engine.typeName t))) →
        StaysWithin engine.limits ran)) := by
  have arrays : Engine.Checks { engine with progress := stop } { array := engine.limits.array } :=
    ⟨globals, packages, Or.inl rfl, Or.inr rfl, Or.inl rfl, fun _ => Or.inl rfl⟩
  have maps : Engine.Checks { engine with progress := stop }
      { array := engine.limits.array, map := engine.limits.map } :=
    ⟨globals, packages, Or.inl rfl, Or.inr rfl, Or.inr rfl, fun _ => Or.inl rfl⟩
  have own := Engine.compile_obeys compiled
  refine ⟨?_, fun whole wholes => ⟨?_, fun short shorts names => ?_⟩⟩
  · refine Engine.run_staysWithin arrays (own.sizes arrays (Or.inl ⟨rfl, rfl⟩) (Or.inl rfl)) ?_ _
    intro e he n s next made
    exact (Engine.compile_obeys made).sizes arrays (Or.inl ⟨rfl, rfl⟩) (Or.inl rfl)
  · refine Engine.run_staysWithin maps (own.sizes maps (Or.inr whole) (Or.inl rfl)) ?_ _
    intro e he n s next made
    exact (Engine.compile_obeys made).sizes maps (Or.inr (wholes e he n s next made)) (Or.inl rfl)
  · have all : Engine.Checks { engine with progress := stop } engine.limits :=
      ⟨globals, packages, Or.inr rfl, Or.inr rfl, Or.inr rfl, names⟩
    refine Engine.run_staysWithin all (own.sizes all (Or.inr whole) (Or.inr short)) ?_ _
    intro e he n s next made
    exact (Engine.compile_obeys made).sizes all (Or.inr (wholes e he n s next made))
      (Or.inr (shorts e he n s next made))

def tightEngine : Engine := { Engine.standard with limits := { string := 8, array := 4, map := 1 } }

def tightSource : Text :=
  Text.lit "let s=\"abc\";let a=[s,s,s,s];let m=#\x7bk:a\x7d;s=\"abcdefgh\""

def Value.size? : Value → Option Nat
  | .string t => some (Utf8.length t)
  | .array items => some items.length
  | .map entries => some entries.length
  | _ => none

def storedSizes : EStateM.Result Halt Stage Value → List (Text × Option Nat)
  | .ok _ s => s.scope.map fun e => (e.name, e.value.size?)
  | .error .. => []

def Code.isTight : Code → Bool
  | .stmt (.assign _ _ target _) => !target.isPart
  | .expr (.map _ entries) => entries.all fun e => Utf8.length e.1 ≤ 8
  | _ => true

theorem Rule.wholeOnly_of_isTight (looping : Bool) (c : Code) (h : c.isTight = true) :
    Rule.wholeOnly looping c := by
  unfold Rule.wholeOnly
  split
  · simpa [Code.isTight] using h
  · trivial

theorem Rule.shortKeys_of_isTight (looping : Bool) (c : Code) (h : c.isTight = true) :
    Rule.shortKeys 8 looping c := by
  unfold Rule.shortKeys
  split
  · simp only [Code.isTight, List.all_eq_true, decide_eq_true_eq] at h
    exact fun e he => Or.inr (h e he)
  · trivial

def tightOutcome : Except Stop Script × Nat → Bool × List (Text × Option Nat)
  | (.ok script, next) => (script.follows Code.isTight 9,
    storedSizes (tightEngine.run script { world := { nextClosure := next } }))
  | (.error _, _) => (false, [])

/-- Under tight limits, which a string, an array and a map come up to. -/
theorem sizes_stay_within_tight : ∃ script next,
    tightEngine.compile false [tightSource] 0 = (.ok script, next) ∧
    script.Obeys Rule.wholeOnly ∧ script.Obeys (Rule.shortKeys tightEngine.limits.string) ∧
    StaysWithin tightEngine.limits (tightEngine.run script { world := { nextClosure := next } }) ∧
    storedSizes (tightEngine.run script { world := { nextClosure := next } }) =
      [(Text.lit "m", some 1), (Text.lit "a", some 4), (Text.lit "s", some 8)] := by
  have outcome : tightOutcome (tightEngine.compile false [tightSource] 0) =
      (true, [(Text.lit "m", some 1), (Text.lit "a", some 4), (Text.lit "s", some 8)]) := by
    decide +kernel
  have names : ∀ t, Fits tightEngine.limits.string (Utf8.length (tightEngine.typeName t)) := by
    intro t
    refine Or.inr ?_
    cases t with
    | int t => cases t <;> decide
    | _ => decide
  have none : ∀ rule, tightEngine.SourcesObey [] rule := fun _ _ never => by cases never
  cases compiled : tightEngine.compile false [tightSource] 0 with
  | mk result next =>
    rw [compiled] at outcome
    cases result with
    | error e => cases outcome
    | ok script =>
      obtain ⟨tight, sizes⟩ := Prod.mk.inj outcome
      have whole := Script.obeys_of_follows Rule.wholeOnly_of_isTight tight
      have short := Script.obeys_of_follows Rule.shortKeys_of_isTight tight
      have ran := (sizes_stay_within tightEngine rfl rfl compiled [] Option.none).2 whole (none _)
      exact ⟨script, next, rfl, whole, short, ran.2 short (none _) names, sizes⟩

def mapSizes : EStateM.Result Halt Stage Value → List Nat
  | .ok _ s => s.scope.filterMap fun e => match e.value with
    | .map entries => some entries.length
    | _ => none
  | .error .. => []

theorem mapSizes_fit {l : Limits} {r : EStateM.Result Halt Stage Value} (h : StaysWithin l r) :
    ∀ n ∈ mapSizes r, Fits l.map n := by
  intro n hn
  cases r with
  | error e s => cases hn
  | ok v s =>
    obtain ⟨e, he, size⟩ := List.mem_filterMap.mp hn
    have within := h.2.scope e he
    split at size
    · next entries value =>
      cases size
      rw [value] at within
      cases within with
      | intro here parts => exact here
    · cases size

def tightSizes : Except Stop Script × Nat → List Nat
  | (.ok script, next) => mapSizes (tightEngine.run script { world := { nextClosure := next } })
  | (.error _, _) => []

/-- `let m=#{}; m.a=1; m.b=2` makes a map of two entries where one is the limit. -/
theorem assigned_entries_are_unchecked : ∃ script next,
    tightEngine.compile false [Text.lit "let m=#\x7b\x7d; m.a=1; m.b=2"] 0 = (.ok script, next) ∧
    ¬ StaysWithin tightEngine.limits
      (tightEngine.run script { world := { nextClosure := next } }) := by
  let source := [Text.lit "let m=#\x7b\x7d; m.a=1; m.b=2"]
  have sizes : tightSizes (tightEngine.compile false source 0) = [2] := by decide +kernel
  cases compiled : tightEngine.compile false source 0 with
  | mk result next =>
    rw [compiled] at sizes
    cases result with
    | error e => cases sizes
    | ok script =>
      refine ⟨script, next, rfl, fun within => ?_⟩
      have two : mapSizes (tightEngine.run script { world := { nextClosure := next } }) = [2] := sizes
      have fits : Fits 1 2 := mapSizes_fit within 2 (by rw [two]; exact List.mem_singleton_self 2)
      unfold Fits at fits
      omega

end Scripting
