import Mathlib.Data.List.Nodup
import Scripting.Proofs.Capture.Tally
import Scripting.Proofs.Consumption
import Scripting.Proofs.Pointers

/-
Closures in merged scripts. All compilations of a process, refused ones too, draw the numbers of their
closures from one count. So a closure literal has a name of its own, which no definition can give, and
however scripts are merged it goes with the function that was made when it was read; what a script
defines is replaced by what a later one defines under the same name.
-/
namespace Scripting

open Grammar

structure Source where
  engine : Engine
  asExpression : Bool
  pieces : List Text

/-- A compilation, in which the first closure to be numbered has the number `first`. -/
structure Compilation extends Source where
  first : Nat

namespace Compilation

variable (c : Compilation)

def settings : Settings := c.engine.settings c.asExpression

def tokens : List PlacedToken := (c.engine.dialect.tokens c.pieces).takeWhile (!·.1.isEof)

def reading : EStateM.Result Stop State Script :=
  whole c.settings c.asExpression (State.start (c.engine.dialect.tokens c.pieces) c.first)

def ending : State :=
  match c.reading with
  | .ok _ s | .error _ s => s

def result : Except Stop Script × Nat := c.engine.compile c.asExpression c.pieces c.first

def next : Nat := c.result.2

def script? : Option Script := c.result.1.toOption

def literals : List Text := (c.script?.elim [] Script.mentions).filterMap Mention.closure?

variable {c}

theorem unmarked (c : Compilation) : Unmarked c.tokens :=
  fun token there => c.engine.dialect.unmarked_tokens c.pieces token (List.takeWhile_subset _ there)

theorem result_eq (c : Compilation) : c.result = match c.reading with
    | .ok script s => (.ok script, s.nextClosure)
    | .error stop s => (.error stop, s.nextClosure) := rfl

theorem next_eq (c : Compilation) : c.next = c.ending.nextClosure := by
  rw [next, result_eq, ending]
  cases c.reading <;> rfl

theorem numbered (c : Compilation) : c.ending.Numbered c.first := by
  have paced : Paced c.tokens _ _ c.reading :=
    parse_paced c.settings c.asExpression (c.engine.dialect.tokens c.pieces) c.first
  have start := State.numbered_start (c.engine.dialect.tokens c.pieces) c.first
  unfold ending
  cases read : c.reading with
  | ok script t =>
    rw [read] at paced
    exact paced.1.numbered c.unmarked c.first start
  | error stop t =>
    rw [read] at paced
    exact paced.2.numbered c.unmarked c.first start

theorem numbered_iff (c : Compilation) (id : Nat) :
    (∃ f ∈ c.ending.functions, f.2.name = closureName id) ↔ c.first ≤ id ∧ id < c.next := by
  rw [next_eq]
  constructor
  · rintro ⟨f, there, named⟩
    exact c.numbered.numbers f there id named
  · rintro ⟨since, before⟩
    exact c.numbered.given id since before

theorem first_le_next (c : Compilation) : c.first ≤ c.next := c.next_eq ▸ c.numbered.start

variable {script : Script}

theorem result_of_script? (accepted : c.script? = some script) : c.result = (.ok script, c.next) := by
  unfold script? at accepted
  cases made : c.result.1 with
  | error stop =>
    rw [made] at accepted
    cases accepted
  | ok other =>
    rw [made] at accepted
    cases accepted
    exact Prod.ext made rfl

theorem functions_of_script? (accepted : c.script? = some script) :
    script.functions = c.ending.functions := by
  have made : c.result.1 = .ok script := congrArg Prod.fst (result_of_script? accepted)
  rw [result_eq] at made
  unfold ending
  cases read : c.reading with
  | error stop t =>
    rw [read] at made
    cases made
  | ok other t =>
    rw [read] at made
    cases made
    exact (whole_functions read).symm

theorem tallied (accepted : c.script? = some script) :
    script.functions.Pairwise (fun a b => a.1 < b.1) ∧
    (∀ f ∈ script.functions, (∃ id, f.2.name = closureName id) ∨ Definable c.tokens f.2.name) ∧
    Mention.closures script.mentions ≤ closureNames c.first c.next :=
  parse_tallies (result_of_script? accepted)

theorem literals_eq (accepted : c.script? = some script) :
    (c.literals : Multiset Text) = Mention.closures script.mentions := by
  rw [literals, accepted]
  rfl

theorem literals_le (c : Compilation) : (c.literals : Multiset Text) ≤ closureNames c.first c.next := by
  cases accepted : c.script? with
  | none =>
    rw [literals, accepted]
    exact Multiset.zero_le _
  | some script =>
    rw [literals_eq accepted]
    exact (tallied accepted).2.2

theorem mem_literals (accepted : c.script? = some script) {pos : Position} {name : Text}
    {captured : List Text} (h : .closure pos name captured ∈ script.mentions) : name ∈ c.literals := by
  rw [literals, accepted]
  exact List.mem_filterMap.mpr ⟨_, h, rfl⟩

theorem name_of_literal {name : Text} (h : name ∈ c.literals) :
    ∃ id, name = closureName id ∧ c.first ≤ id ∧ id < c.next := by
  obtain ⟨id, taken, named⟩ := Multiset.mem_map.mp (Multiset.mem_of_le c.literals_le h)
  obtain ⟨since, before⟩ := Multiset.mem_Ico.mp taken
  exact ⟨id, named.symm, since, before⟩

end Compilation

/-- The count is kept in the world: a compilation begins with the number that stands there and leaves
the next one there, whether the script is accepted or not. -/
theorem Compilation.counted (c : Compilation) {m : Machine} (begun : m.world.nextClosure = c.first) :
    (∀ script n, Eval.compile c.engine c.asExpression c.pieces m = .ok script n →
      c.script? = some script ∧ n.world.nextClosure = c.next) ∧
    ∀ halt n, Eval.compile c.engine c.asExpression c.pieces m = .error halt n →
      c.script? = none ∧ n.world.nextClosure = c.next := by
  have made : c.engine.compile c.asExpression c.pieces c.first = (c.result.1, c.next) := rfl
  unfold Eval.compile script?
  rw [begun, made]
  dsimp only
  cases outcome : c.result.1 with
  | ok script =>
    refine ⟨fun other n same => ?_, fun halt n never => (nomatch never)⟩
    cases same
    exact ⟨rfl, rfl⟩
  | error stop =>
    cases stop with
    | fault e =>
      refine ⟨fun other n never => (nomatch never), fun halt n same => ?_⟩
      cases same
      exact ⟨rfl, rfl⟩
    | exhausted =>
      refine ⟨fun other n never => (nomatch never), fun halt n same => ?_⟩
      cases same
      exact ⟨rfl, rfl⟩

/-- The compilations of a process. Each begins with the number that the one before has left, whether
that was accepted or not. -/
def process (first : Nat) : List Source → List Compilation
  | [] => []
  | source :: later =>
    let c : Compilation := { source with first }
    c :: process c.next later

theorem process_first_le (first : Nat) (sources : List Source) :
    ∀ c ∈ process first sources, first ≤ c.first := by
  induction sources generalizing first with
  | nil => exact fun _ none => nomatch none
  | cons source later ih =>
    intro c there
    rcases List.mem_cons.mp there with rfl | after
    · exact Nat.le_refl _
    · exact Nat.le_trans (Compilation.first_le_next ⟨source, first⟩) (ih _ c after)

theorem process_apart (first : Nat) (sources : List Source) :
    (process first sources).Pairwise fun a b => a.next ≤ b.first := by
  induction sources generalizing first with
  | nil => exact .nil
  | cons source later ih => exact List.pairwise_cons.mpr ⟨process_first_le _ later, ih _⟩

theorem process_literals_nodup (first : Nat) (sources : List Source) :
    ((process first sources).flatMap Compilation.literals).Nodup := by
  refine List.nodup_flatMap.mpr ⟨fun c _ => ?_, (process_apart first sources).imp ?_⟩
  · exact Multiset.coe_nodup.mp (Multiset.nodup_of_le c.literals_le (closureNames_nodup _ _))
  · intro a b apart name early late
    obtain ⟨id, rfl, -, before⟩ := Compilation.name_of_literal early
    obtain ⟨id', same, since, -⟩ := Compilation.name_of_literal late
    have := closureName_injective same
    omega

section

variable {first : Nat} {sources : List Source} {c d : Compilation} {f g : FnKey × ScriptFn} {id : Nat}

theorem process_once (hc : c ∈ process first sources) (hd : d ∈ process first sources)
    (hf : f ∈ c.ending.functions) (hg : g ∈ d.ending.functions) (named : f.2.name = closureName id)
    (same : g.2.name = closureName id) : c = d ∧ f = g := by
  have early := (c.numbered_iff id).mp ⟨f, hf, named⟩
  have late := (d.numbered_iff id).mp ⟨g, hg, same⟩
  have symm : Std.Symm fun a b : Compilation => a.next ≤ b.first ∨ b.next ≤ a.first :=
    ⟨fun _ _ => Or.symm⟩
  have either : (process first sources).Pairwise fun a b => a.next ≤ b.first ∨ b.next ≤ a.first :=
    (process_apart first sources).imp Or.inl
  have apart := either.forall hc hd
  have one : c = d := by
    by_contra differ
    have := apart differ
    omega
  subst one
  exact ⟨rfl, c.numbered.once f hf g hg id named same⟩

end

/-- The scripts that are put together from accepted ones. -/
inductive Merged (work : List Compilation) : Script → Prop where
  | accepted {c : Compilation} {script : Script} (there : c ∈ work) (accepted : c.script? = some script) :
      Merged work script
  | merge {a b : Script} (first : Merged work a) (second : Merged work b) : Merged work (a.merge b)

namespace Merged

variable {work : List Compilation} {script : Script}

theorem ordered (h : Merged work script) : script.functions.Pairwise fun a b => a.1 < b.1 := by
  induction h with
  | accepted there accepted => exact (Compilation.tallied accepted).1
  | merge _ _ ihₐ _ => exact Dict.pairwise_merge ihₐ _

theorem functions (h : Merged work script) : ∀ f ∈ script.functions,
    ∃ c ∈ work, ∃ own, c.script? = some own ∧ f ∈ own.functions := by
  induction h with
  | accepted there accepted => exact fun f hf => ⟨_, there, _, accepted, hf⟩
  | merge _ _ ihₐ ihᵦ => exact fun f hf => (Dict.mem_merge hf).elim (ihᵦ f) (ihₐ f)

end Merged

theorem Script.mentions_merge {a b : Script} {m : Mention} (h : m ∈ (a.merge b).mentions) :
    m ∈ a.mentions ∨ m ∈ b.mentions := by
  rcases List.mem_append.mp h with top | inside
  · rw [Script.merge, Stmt.mentionsAll_append] at top
    exact (List.mem_append.mp top).imp (List.mem_append_left _) (List.mem_append_left _)
  · obtain ⟨f, there, within⟩ := List.mem_flatMap.mp inside
    refine (Dict.mem_merge there).symm.imp (fun old => ?_) (fun new => ?_)
    · exact List.mem_append_right _ (List.mem_flatMap.mpr ⟨f, old, within⟩)
    · exact List.mem_append_right _ (List.mem_flatMap.mpr ⟨f, new, within⟩)

theorem Script.fn?_merge (a : Script) {b : Script} (ordered : b.functions.Pairwise fun x y => x.1 < y.1)
    (name : Text) (arity : Nat) : (a.merge b).library.fn? (Signature.ofScript name arity) =
      (b.library.fn? (Signature.ofScript name arity)).or
        (a.library.fn? (Signature.ofScript name arity)) := by
  have found : (a.merge b).functions.find? ⟨name, arity⟩ =
      (b.functions.find? ⟨name, arity⟩).or (a.functions.find? ⟨name, arity⟩) :=
    Dict.find?_merge a.functions ordered _
  simp only [Script.library, Module.fn?_ofFunctions, found, Option.map_or]

section

variable {first : Nat} {sources : List Source} {script own : Script} {c : Compilation} {f g : ScriptFn}
  {key : FnKey} {pos : Position} {name : Text} {captured : List Text}

theorem Merged.only (h : Merged (process first sources) script) (there : c ∈ process first sources)
    (accepted : c.script? = some own) (literal : .closure pos name captured ∈ own.mentions)
    (known : own.functions.find? f.key = some f) (named : f.name = name)
    (found : script.functions.find? key = some g) (same : key.name = name) : key = f.key ∧ g = f := by
  obtain ⟨d, there', other, accepted', his⟩ := h.functions _ (Dict.mem_of_find? found)
  have mine := Dict.mem_of_find? known
  rw [Compilation.functions_of_script? accepted'] at his
  rw [Compilation.functions_of_script? accepted] at mine
  obtain ⟨id, numbered, -⟩ := Compilation.name_of_literal (Compilation.mem_literals accepted literal)
  have keyed : key.name = g.name := congrArg FnKey.name (d.numbered.keys _ his)
  obtain ⟨-, one⟩ := process_once there' there his mine ((keyed.symm.trans same).trans numbered)
    (named.trans numbered)
  exact ⟨congrArg Prod.fst one, congrArg Prod.snd one⟩

theorem Merged.closure (h : Merged (process first sources) script)
    (literal : .closure pos name captured ∈ script.mentions) :
    ∃ c ∈ process first sources, ∃ own, c.script? = some own ∧
      .closure pos name captured ∈ own.mentions ∧
      ∀ f, own.functions.find? f.key = some f → f.name = name →
        script.functions.find? f.key = some f := by
  induction h with
  | accepted there accepted => exact ⟨_, there, _, accepted, literal, fun f found _ => found⟩
  | @merge a b ha hb ihₐ ihᵦ =>
    have found : ∀ key, (a.merge b).functions.find? key =
        (b.functions.find? key).or (a.functions.find? key) :=
      Dict.find?_merge a.functions hb.ordered
    rcases Script.mentions_merge literal with early | late
    · obtain ⟨c, there, own, accepted, mine, keeps⟩ := ihₐ early
      refine ⟨c, there, own, accepted, mine, fun f known named => ?_⟩
      rw [found, keeps f known named]
      cases later : b.functions.find? f.key with
      | none => rfl
      | some g => rw [(hb.only there accepted mine known named later named).2, Option.some_or]
    · obtain ⟨c, there, own, accepted, mine, keeps⟩ := ihᵦ late
      refine ⟨c, there, own, accepted, mine, fun f known named => ?_⟩
      rw [found, keeps f known named, Option.some_or]

end

/-- Closures in a process that compiles one source after the other, each accepted or refused. No two
closure literals of the accepted scripts share a name. The functions of closures, also of those that a
refused script had come to, go by the numbers that were given, and each number has one function. A
definition cannot be given such a name, and a function that has another one comes from a definition.
Whatever accepted scripts are merged, and in whatever order, each closure in the result is found there,
under its name and with as many parameters as it captures and declares, as the function that was made
when it was read; and under every name and number of parameters the later script has its function in
the place of the earlier one. -/
theorem merged_closures_keep_their_functions (first : Nat) (sources : List Source) :
    ((process first sources).flatMap Compilation.literals).Nodup ∧
    (∀ c ∈ process first sources, ∀ id,
      (∃ f ∈ c.ending.functions, f.2.name = closureName id) ↔ c.first ≤ id ∧ id < c.next) ∧
    (∀ c ∈ process first sources, ∀ d ∈ process first sources,
      ∀ f ∈ c.ending.functions, ∀ g ∈ d.ending.functions, ∀ id,
        f.2.name = closureName id → g.2.name = closureName id → c = d ∧ f = g) ∧
    (∀ c ∈ process first sources, ∀ name, Definable c.tokens name → ∀ id, name ≠ closureName id) ∧
    ∀ script, Merged (process first sources) script →
      (∀ f ∈ script.functions, (∃ id, f.2.name = closureName id) ∨
        ∃ c ∈ process first sources, Definable c.tokens f.2.name) ∧
      (∀ pos name captured, .closure pos name captured ∈ script.mentions →
        ∃ c ∈ process first sources, ∃ own declared f, c.script? = some own ∧
          .closure pos name captured ∈ own.mentions ∧
          Generates c.settings c.tokens (.closure pos name captured) declared f ∧
          (∃ id, name = closureName id) ∧ f.name = name ∧ f.params = captured ++ declared ∧
          (∀ exposedOnly, own.library.scriptFn? name f.params.length exposedOnly = some f) ∧
          ∀ arity exposedOnly, script.library.scriptFn? name arity exposedOnly =
            if arity = f.params.length then some f else none) ∧
      ∀ later, Merged (process first sources) later → ∀ name arity,
        (script.merge later).library.fn? (Signature.ofScript name arity) =
          (later.library.fn? (Signature.ofScript name arity)).or
            (script.library.fn? (Signature.ofScript name arity)) := by
  refine ⟨process_literals_nodup first sources, fun c _ id => c.numbered_iff id,
    fun c hc d hd f hf g hg id named same => process_once hc hd hf hg named same,
    fun c _ name definable id => definable.unmarked c.unmarked id, fun script merged => ⟨?_, ?_, ?_⟩⟩
  · intro f hf
    obtain ⟨c, there, own, accepted, mine⟩ := merged.functions f hf
    exact ((Compilation.tallied accepted).2.1 f mine).imp id fun definable => ⟨c, there, definable⟩
  · intro pos name captured literal
    obtain ⟨c, there, own, accepted, mine, keeps⟩ := merged.closure literal
    obtain ⟨id, declared, f, -, -, numbered, generates, named, closes, found⟩ :=
      Engine.compiled_closure (Compilation.result_of_script? accepted) mine
    refine ⟨c, there, own, declared, f, accepted, mine, generates, ⟨id, numbered⟩, named, closes.params,
      ?_, ?_⟩
    · rw [← named]
      exact Module.scriptFn?_ofFunctions found closes.exposed
    · intro arity exposedOnly
      split
      · next same =>
        rw [same, ← named]
        exact Module.scriptFn?_ofFunctions (keeps f found named) closes.exposed exposedOnly
      · next other =>
        cases there' : script.functions.find? ⟨name, arity⟩ with
        | none => simp [Module.scriptFn?, Script.library, Module.fn?_ofFunctions, there']
        | some g =>
          obtain ⟨same, -⟩ := merged.only there accepted mine found named there' rfl
          exact absurd (congrArg FnKey.arity same) other
  · exact fun later merged' name arity => script.fn?_merge merged'.ordered name arity

/-- A closure in a closure and one in a function, then a script that is refused after it had a closure,
and then another function of the same name. -/
def pickingSources : List Source := [
  ⟨.standard, false, [Text.lit "let f = || \x7b let g = |x| x; g \x7d; fn pick() \x7b || 1 \x7d"]⟩,
  ⟨.standard, false, [Text.lit "let f = || 2; )"]⟩,
  ⟨.standard, false, [Text.lit "fn pick() \x7b |y| y \x7d let f = || 3;"]⟩]

def picking : List Compilation := process 0 pickingSources

def picked (n : Nat) : Script := (picking[n]?.bind Compilation.script?).getD {}

theorem merged_picked {n : Nat} (accepted : (picking[n]?.bind Compilation.script?).isSome = true) :
    Merged picking (picked n) := by
  obtain ⟨script, made⟩ := Option.isSome_iff_exists.mp accepted
  obtain ⟨c, there, own⟩ := Option.bind_eq_some_iff.mp made
  have same : picked n = script := by rw [picked, made, Option.getD_some]
  rw [same]
  exact .accepted (List.mem_of_getElem? there) own

theorem merged_closures_keep_their_functions_picking :
    (picking.map fun c => (c.literals, c.script?.isSome)) =
      [([closureName 1, closureName 0, closureName 2], true), ([], false),
        ([closureName 5, closureName 4], true)] ∧
    Merged picking (picked 0) ∧ Merged picking (picked 2) ∧
    .closure ⟨1, 9⟩ (closureName 1) [] ∈ ((picked 0).merge (picked 2)).mentions ∧
    (∃ f, f.name = closureName 1 ∧ ∀ arity exposedOnly,
      ((picked 0).merge (picked 2)).library.scriptFn? (closureName 1) arity exposedOnly =
        if arity = f.params.length then some f else none) ∧
    ((picked 0).merge (picked 2)).library.fn? (Signature.ofScript (Text.lit "pick") 0) =
      ((picked 2).library.fn? (Signature.ofScript (Text.lit "pick") 0)).or
        ((picked 0).library.fn? (Signature.ofScript (Text.lit "pick") 0)) := by
  have early : Merged picking (picked 0) := merged_picked (by decide +kernel)
  have late : Merged picking (picked 2) := merged_picked (by decide +kernel)
  have literal : .closure ⟨1, 9⟩ (closureName 1) [] ∈ ((picked 0).merge (picked 2)).mentions := by
    decide +kernel
  obtain ⟨-, -, -, -, merged⟩ := merged_closures_keep_their_functions 0 pickingSources
  obtain ⟨-, found, -⟩ := merged _ (early.merge late)
  obtain ⟨-, -, replaced⟩ := merged _ early
  obtain ⟨c, -, own, declared, f, -, -, -, -, named, -, -, once⟩ := found _ _ _ literal
  exact ⟨by decide +kernel, early, late, literal, ⟨f, named, once⟩, replaced _ late _ 0⟩

end Scripting
