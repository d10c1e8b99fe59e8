import Mathlib.Data.List.Nodup
import Scripting.Proofs.Parsing.State

/-
What a rule has done that succeeded: how the tokens looked that it took, and what was read in a setting
of its own, one level deeper, in a scope, in a body or in a loop. What comes of such a setting is what
the inner reading gave, from the state that was set up, and then the setting is put back.
-/
namespace Scripting.Grammar

variable {α : Type} {p : Parse α} {a : α} {s t : State}

theorem nested_cases {settings : Settings} (h : nested settings p s = .ok a t) :
    ¬ (0 < settings.maxDepth ∧ settings.maxDepth ≤ s.depth) ∧
      ∃ u, p { s with depth := s.depth + 1 } = .ok a u ∧ t = { u with depth := u.depth - 1 } := by
  obtain ⟨_, _, got, rest⟩ := bind_cases h
  cases got
  split at rest
  · cases rest
  · next room =>
    obtain ⟨_, _, deeper, inside⟩ := bind_cases rest
    cases deeper
    obtain ⟨b, u, read, back⟩ := bind_cases inside
    cases back
    exact ⟨room, u, read, rfl⟩

theorem inScope_cases (h : inScope p s = .ok a t) : ∃ u, p s = .ok a u ∧
    t = { u with body := { u.body with locals := u.body.locals.take s.body.locals.length } } := by
  obtain ⟨_, _, got, rest⟩ := bind_cases h
  cases got
  obtain ⟨b, u, read, back⟩ := bind_cases rest
  cases back
  exact ⟨u, read, rfl⟩

theorem inBody_cases {body : Body} {r : α × Body} (h : inBody body p s = .ok r t) :
    ∃ u, p { s with body := body, outer := s.body :: s.outer } = .ok r.1 u ∧ r.2 = u.body ∧
      t = { u with body := u.outer.headD {}, outer := u.outer.tail } := by
  obtain ⟨_, _, entered, rest⟩ := bind_cases h
  cases entered
  obtain ⟨b, u, read, left⟩ := bind_cases rest
  obtain ⟨_, _, got, back⟩ := bind_cases left
  cases got
  cases back
  exact ⟨u, read, rfl, rfl⟩

theorem inLoop_cases (h : inLoop p s = .ok a t) : ∃ u,
    p { s with body := { s.body with loopDepth := s.body.loopDepth + 1 } } = .ok a u ∧
      t = { u with body := { u.body with loopDepth := u.body.loopDepth - 1 } } := by
  obtain ⟨_, _, entered, rest⟩ := bind_cases h
  cases entered
  obtain ⟨b, u, read, left⟩ := bind_cases rest
  cases left
  exact ⟨u, read, rfl⟩

theorem check_cases {symbol : Symbol} {found : Bool} (h : check symbol s = .ok found t) :
    t = s ∧ (found = true ↔ ∃ pos rest, s.rest = (.symbol symbol, pos) :: rest) := by
  obtain ⟨token, u, got, answer⟩ := bind_cases h
  cases got
  unfold State.current at answer
  cases rest : s.rest with
  | nil =>
    simp only [rest, List.headD_nil] at answer
    cases answer
    simp
  | cons first later =>
    obtain ⟨token, pos⟩ := first
    simp only [rest, List.headD_cons] at answer
    cases token with
    | symbol other =>
      cases answer
      simp
    | _ =>
      cases answer
      simp

theorem accept_cases {symbol : Symbol} {found : Bool} (h : accept symbol s = .ok found t) :
    (found = true ∧ ∃ pos, s.rest = (.symbol symbol, pos) :: t.rest) ∨
      (found = false ∧ t = s ∧ ∀ pos rest, s.rest ≠ (.symbol symbol, pos) :: rest) := by
  obtain ⟨there, u, checked, answer⟩ := bind_cases h
  obtain ⟨rfl, iff⟩ := check_cases checked
  cases there with
  | true =>
    obtain ⟨pos, rest, here⟩ := iff.mp rfl
    cases answer
    exact .inl ⟨rfl, pos, by simp [here]⟩
  | false =>
    cases answer
    refine .inr ⟨rfl, rfl, fun pos rest here => ?_⟩
    have := iff.mpr ⟨pos, rest, here⟩
    cases this

theorem identifier?_cases {name : Option Text} (h : identifier? s = .ok name t) :
    t = s ∧ ∀ x, name = some x → ∃ pos rest, s.rest = (.identifier x, pos) :: rest := by
  obtain ⟨token, u, got, answer⟩ := bind_cases h
  cases got
  unfold State.current at answer
  cases rest : s.rest with
  | nil =>
    simp only [rest, List.headD_nil] at answer
    cases answer
    simp
  | cons first later =>
    obtain ⟨token, pos⟩ := first
    simp only [rest, List.headD_cons] at answer
    cases token with
    | identifier y =>
      cases answer
      simp
    | _ =>
      cases answer
      simp

/-- Can the expression stand as an index? No integer below zero can, no float, no character, no truth
value and not the unit. -/
def MayIndex : Expr → Prop
  | .int _ n => 0 ≤ n.val
  | .float .. | .char .. | .bool .. | .unit _ => False
  | _ => True

theorem checkIndex_cases {e : Expr} {s t : State} {u : Unit} (h : checkIndex e s = .ok u t) :
    MayIndex e := by
  cases e with
  | int pos n =>
    unfold checkIndex at h
    dsimp only at h
    split at h
    · exact (failAt_fails _ _ _ _ _ _ h).elim
    · next sign => exact Int.not_lt.mp sign
  | float | char | bool | unit => exact (failAt_fails _ _ _ _ _ _ h).elim
  | _ => trivial

theorem mapEntries_cases {rules : Rules} (n : Nat) {found entries : List (Text × Expr)} {s t : State}
    (h : mapEntries rules n found s = .ok entries t) (distinct : (found.map (·.1)).Nodup) :
    (entries.map (·.1)).Nodup := by
  induction n generalizing found s with
  | zero => cases h
  | succ n ih =>
    obtain ⟨done, s₁, -, h₁⟩ := bind_cases h
    split at h₁
    · cases h₁
      rw [List.map_reverse]
      exact List.nodup_reverse.mpr distinct
    · obtain ⟨ended, s₂, -, h₂⟩ := bind_cases h₁
      split at h₂
      · exact ((fail_fails _ _).bind _ _ _ _ h₂).elim
      · obtain ⟨key, s₃, -, h₃⟩ := bind_cases h₂
        obtain ⟨taken, s₄, -, h₄⟩ := bind_cases h₃
        dsimp only at h₄
        split at h₄
        · exact ((failAt_fails _ _ _).bind _ _ _ _ h₄).elim
        · next unseen =>
          obtain ⟨_, s₅, -, h₅⟩ := bind_cases h₄
          obtain ⟨e, s₆, -, h₆⟩ := bind_cases h₅
          obtain ⟨comma, s₇, -, h₇⟩ := bind_cases h₆
          have fresh : (((key, e) :: found).map (·.1)).Nodup := by
            refine List.nodup_cons.mpr ⟨fun seen => unseen ?_, distinct⟩
            simpa using seen
          split at h₇
          · obtain ⟨closes, s₈, -, h₈⟩ := bind_cases h₇
            split at h₈
            · exact ((failUnlessLexed_fails _ _).bind _ _ _ _ h₈).elim
            · exact ih h₈ fresh
          · exact ih h₇ fresh

/-! The parameters of a closure are the names between its bars. -/

def paramNames : List PlacedToken → List Text
  | (.identifier x, _) :: (.symbol .comma, _) :: rest => x :: paramNames rest
  | (.identifier x, _) :: _ => [x]
  | _ => []

def declaredParams : List PlacedToken → List Text
  | (.symbol .or, _) :: _ => []
  | _ :: rest => paramNames rest
  | [] => []

def closureBody (rules : Rules) (pos : Position) (params : List Text) : Parse Expr := do
  let bodyPos ← currentPos
  let (body, inner) ← inBody { locals := params, allowThis := true } rules.statement
  let name := closureName (← freshClosure)
  define {
    name := name, access := .exposed, params := inner.captured ++ params,
    body := body.toList, bodyPos := bodyPos, pos := pos }
  inner.captured.forM use
  return .closure pos name inner.captured

theorem closureParams_cases (n : Nat) {params result : List Text}
    (h : closureParams n params s = .ok result t) :
    s.Skips t ∧ result = params ++ paramNames s.rest ∧ (params.Nodup → result.Nodup) := by
  induction n generalizing params s with
  | zero => cases h
  | succ n ih =>
    obtain ⟨closes, s₁, accepted, h₁⟩ := bind_cases h
    have skips := accept_quiet _ _ _ _ accepted
    rcases accept_cases accepted with ⟨rfl, pos, bar⟩ | ⟨rfl, rfl, -⟩
    · cases h₁
      exact ⟨skips, by simp [bar, paramNames], id⟩
    · obtain ⟨name, s₂, named, h₂⟩ := bind_cases h₁
      obtain ⟨rfl, spelled⟩ := identifier?_cases named
      cases name with
      | none => exact (failUnlessLexed_fails _ _ _ _ _ h₂).elim
      | some x =>
        obtain ⟨pos, more, first⟩ := spelled x rfl
        obtain ⟨taken, s₃, advanced, h₃⟩ := bind_cases h₂
        have moved := advance_quiet _ _ _ advanced
        have left : s₃.rest = more := by
          cases advanced
          simp [first]
        dsimp only at h₃
        split at h₃
        · exact ((failAt_fails _ _ _).bind _ _ _ _ h₃).elim
        · next unseen =>
          have fresh : params.Nodup → (params ++ [x]).Nodup := by
            intro once
            rw [← List.concat_eq_append]
            exact List.Nodup.concat (by simpa using unseen) once
          obtain ⟨comma, s₄, separated, h₄⟩ := bind_cases h₃
          have passed := accept_quiet _ _ _ _ separated
          rcases accept_cases separated with ⟨rfl, commaPos, between⟩ | ⟨rfl, rfl, -⟩
          · obtain ⟨skips', names, once⟩ := ih h₄
            refine ⟨(moved.trans passed).trans skips', ?_, fun h => once (fresh h)⟩
            rw [names, first, ← left, between, paramNames]
            simp
          · -- Without a comma the closing bar comes next, and there are no more names.
            obtain ⟨bar, s₅, checked, h₅⟩ := bind_cases h₄
            obtain ⟨rfl, iff⟩ := check_cases checked
            cases bar with
            | false => exact ((fail_fails _ _).bind _ _ _ _ h₅).elim
            | true =>
              obtain ⟨barPos, after, closing⟩ := iff.mp rfl
              obtain ⟨skips', names, once⟩ := ih h₅
              refine ⟨moved.trans skips', ?_, fun h => once (fresh h)⟩
              rw [names, first, ← left, closing]
              simp [paramNames]

theorem closureParams_quiet (n : Nat) (params : List Text) : Quiet (closureParams n params) :=
  fun _ _ _ read => (closureParams_cases n read).1

/-- How a closure is read: its parameters, its body as a body of its own, and then the function that
it leaves and the captured variables, which the body around it uses. -/
theorem closure_cases {rules : Rules} {e : Expr} (h : closure rules s = .ok e t) :
    ∃ (v u : State) (pos : Position) (stmt : Option Stmt) (inner : Body) (f : ScriptFn),
      s.Skips v ∧ (declaredParams s.rest).Nodup ∧
      inBody { locals := declaredParams s.rest, allowThis := true } rules.statement v =
        .ok (stmt, inner) u ∧
      f.name = closureName u.nextClosure ∧ f.params = inner.captured ++ declaredParams s.rest ∧
      f.body = stmt.toList ∧ f.access = .exposed ∧ e = .closure pos f.name inner.captured ∧
      (inner.captured.forM use : Parse Unit) { u with
        nextClosure := u.nextClosure + 1, functions := u.functions.insert f.key f } = .ok () t := by
  obtain ⟨opened, s₁, advanced, h₁⟩ := bind_cases h
  have skipped := advance_quiet _ _ _ advanced
  have first : opened = s.current ∧ s₁.rest = s.rest.tail := by
    cases advanced
    exact ⟨rfl, rfl⟩
  obtain ⟨token, pos⟩ := opened
  obtain ⟨params, v, skips, names, once, body⟩ : ∃ (params : List Text) (v : State), s.Skips v ∧
      params = declaredParams s.rest ∧ params.Nodup ∧ closureBody rules pos params v = .ok e t := by
    dsimp only at h₁
    split at h₁
    · obtain ⟨params, v, none, h₂⟩ := bind_cases h₁
      cases none
      refine ⟨[], s₁, skipped, ?_, List.nodup_nil, h₂⟩
      cases rest : s.rest with
      | nil => rfl
      | cons token later =>
        have double : token = (.symbol .or, pos) := by
          simpa [State.current, rest] using first.1.symm
        rw [double, declaredParams]
    · next single =>
      obtain ⟨n, v, counted, h₂⟩ := bind_cases h₁
      cases counted
      obtain ⟨params, v, read, h₃⟩ := bind_cases h₂
      obtain ⟨skips, names, once⟩ := closureParams_cases _ read
      refine ⟨params, v, skipped.trans skips, ?_, once List.nodup_nil, h₃⟩
      rw [names, first.2, List.nil_append]
      cases rest : s.rest with
      | nil => rfl
      | cons token' later =>
        have opener : token' = (token, pos) := by simpa [State.current, rest] using first.1.symm
        rw [opener, List.tail_cons, declaredParams]
        exact fun _ same => single (congrArg Prod.fst same)
  subst names
  obtain ⟨bodyPos, _, placed, h₂⟩ := bind_cases body
  cases placed
  obtain ⟨⟨stmt, inner⟩, u, read, h₃⟩ := bind_cases h₂
  obtain ⟨id, _, numbered, h₄⟩ := bind_cases h₃
  cases numbered
  obtain ⟨_, _, defined, h₅⟩ := bind_cases h₄
  cases defined
  obtain ⟨_, _, used, h₆⟩ := bind_cases h₅
  cases h₆
  exact ⟨v, u, pos, stmt, inner, _, skips, once, read, rfl, rfl, rfl, rfl, rfl, used⟩

theorem functionParams_cases {function : Text} (n : Nat) {params result : List Text}
    (h : functionParams function n params s = .ok result t) (once : params.Nodup) :
    result.Nodup := by
  induction n generalizing params s with
  | zero => cases h
  | succ n ih =>
    obtain ⟨closes, s₁, -, h₁⟩ := bind_cases h
    split at h₁
    · cases h₁
      exact once
    · obtain ⟨param, s₂, -, h₂⟩ := bind_cases h₁
      cases param with
      | none => exact (failUnlessLexed_fails _ _ _ _ _ h₂).elim
      | some param =>
        obtain ⟨taken, s₃, -, h₃⟩ := bind_cases h₂
        dsimp only at h₃
        split at h₃
        · exact ((failAt_fails _ _ _).bind _ _ _ _ h₃).elim
        · next unseen =>
          have fresh : (params ++ [param]).Nodup := by
            rw [← List.concat_eq_append]
            exact List.Nodup.concat (by simpa using unseen) once
          obtain ⟨comma, s₄, -, h₄⟩ := bind_cases h₃
          split at h₄
          · obtain ⟨bar, s₅, -, h₅⟩ := bind_cases h₄
            split at h₅
            · exact ((fail_fails _ _).bind _ _ _ _ h₅).elim
            · exact ih h₅ fresh
          · exact ih h₄ fresh

/-- How a function definition is read: its name, its parameters, its body as a body of its own, and then
the function that it leaves, of which there was none before. -/
theorem functionDefinition_cases {rules : Rules} {access : Access} {r : Unit}
    (h : functionDefinition settings rules access s = .ok r t) :
    ∃ (n m v u : State) (inner : Body) (f : ScriptFn),
      s.Skips n ∧ functionName n = .ok f.name m ∧ s.Skips v ∧
      v.functions.contains f.key = false ∧ f.params.Nodup ∧
      inBody { locals := f.params, allowThis := true } (block settings rules) v =
        .ok ((f.bodyPos, f.body), inner) u ∧
      t = { u with functions := u.functions.insert f.key f } := by
  obtain ⟨taken, s₁, advanced, h₁⟩ := bind_cases h
  obtain ⟨name, s₂, named, h₂⟩ := bind_cases h₁
  obtain ⟨_, s₃, moved, h₃⟩ := bind_cases h₂
  obtain ⟨opened, s₄, accepted, h₄⟩ := bind_cases h₃
  have skips₁ := advance_quiet _ _ _ advanced
  have skips₄ := ((skips₁.trans (functionName_quiet _ _ _ named)).trans
    (advance_quiet _ _ _ moved)).trans (accept_quiet _ _ _ _ accepted)
  dsimp only at h₄
  split at h₄
  · exact ((fail_fails _ _).bind _ _ _ _ h₄).elim
  · obtain ⟨n, _, counted, h₅⟩ := bind_cases h₄
    cases counted
    obtain ⟨params, s₅, read, h₆⟩ := bind_cases h₅
    have skips₅ := skips₄.trans (functionParams_quiet _ _ _ _ _ _ read)
    obtain ⟨_, _, got, h₇⟩ := bind_cases h₆
    cases got
    split at h₇
    · exact ((failAt_fails _ _ _).bind _ _ _ _ h₇).elim
    · next unseen =>
      obtain ⟨brace, s₆, checked, h₈⟩ := bind_cases h₇
      have quiet := check_quiet _ _ _ _ checked
      split at h₈
      · exact ((fail_fails _ _).bind _ _ _ _ h₈).elim
      · obtain ⟨⟨⟨bodyPos, code⟩, inner⟩, u, inside, defined⟩ := bind_cases h₈
        cases defined
        refine ⟨s₁, s₂, s₆, u, inner, ⟨name, access, params, code, bodyPos, taken.2⟩, skips₁, named,
          skips₅.trans quiet, ?_, functionParams_cases _ read List.nodup_nil, inside, rfl⟩
        rw [quiet.functions]
        simpa [ScriptFn.key] using unseen

end Scripting.Grammar
