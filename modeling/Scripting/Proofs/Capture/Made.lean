import Scripting.Proofs.Capture.Ledger

/-
Closures have their functions. When a closure has been read its function is in the table, with what the
body takes from outside in front of its parameters, and it stays there for as long as the parse goes on.
-/
namespace Scripting.Grammar

variable {settings : Settings} {tokens : List PlacedToken} {since : Body × State}
  {before ms : List Mention} {s t : State}

theorem closes_of_follow {declared : List Text} (once : declared.Nodup) (f : ScriptFn)
    {inner : Body} (met : inner = ({ locals := declared, allowThis := true } : Body).follow
      (Stmt.mentionsAll f.body)) (params : f.params = inner.captured ++ declared)
    (exposed : f.access = .exposed) : Closes inner.captured declared f := by
  obtain ⟨different, free⟩ := Body.captured_follow declared (Stmt.mentionsAll f.body) []
    { locals := declared, allowThis := true } (by simp) List.nodup_nil
  rw [← met] at different free
  have captured : ∀ x, x ∈ inner.captured ↔
      .name x ∈ Mention.enclose [] (Stmt.mentionsAll f.body) ∧ x ∉ declared := by simpa using free
  have known : ∀ x, .name x ∈ Mention.enclose [] (Stmt.mentionsAll f.body) → x ∈ f.params := by
    intro x hx
    rw [params]
    by_cases own : x ∈ declared
    · exact List.mem_append_right _ own
    · exact List.mem_append_left _ ((captured x).mpr ⟨hx, own⟩)
  have disjoint : ∀ x ∈ inner.captured, ∀ y ∈ declared, x ≠ y := by
    rintro x hx _ hy rfl
    exact ((captured x).mp hx).2 hy
  refine ⟨params, ?_, Stmt.scopedAll_of_mentions f.body [] known,
    fun x hx => ((captured x).mp hx).1, exposed⟩
  rw [params]
  exact List.nodup_append.mpr ⟨different, once, disjoint⟩

theorem made_of_enclose {inside : List Text}
    (h : ∀ m ∈ Mention.enclose inside ms, Made settings tokens s m) :
    ∀ m ∈ ms, Made settings tokens s m := by
  intro m hm
  cases m with
  | closure pos name captured => exact h _ (Mention.closure_mem_enclose hm)
  | _ => trivial

variable (settings tokens) in
/-- What a body is like that has met these mentions since a state of the parse, with every closure among
them made. -/
structure State.Met (since : Body × State) (s : State) (ms : List Mention) : Prop where
  sound : s.Sound settings tokens
  grows : Grows tokens since.2 s
  outer : s.outer = since.2.outer
  body : s.body = since.1.follow ms
  made : ∀ m ∈ ms, Made settings tokens s m

namespace State.Met

theorem now (sound : s.Sound settings tokens) : s.Met settings tokens (s.body, s) [] :=
  ⟨sound, .of_same rfl rfl, rfl, rfl, fun _ none => nomatch none⟩

theorem grow (h : s.Met settings tokens since before) (sound : t.Sound settings tokens)
    (grows : Grows tokens s t) (outer : t.outer = s.outer) (body : t.body = s.body) :
    t.Met settings tokens since before :=
  ⟨sound, h.grows.trans grows, outer.trans h.outer, body.trans h.body,
    fun m hm => (h.made m hm).grow grows⟩

theorem meet (h : s.Met settings tokens since before) {m : Mention} (made : Made settings tokens s m) :
    State.Met settings tokens since { s with body := s.body.meet m } (before ++ [m]) := by
  have same : Grows tokens s { s with body := s.body.meet m } := .of_same rfl rfl
  refine ⟨h.sound.grow (List.suffix_refl _) rfl rfl, h.grows.trans same, h.outer, ?_, ?_⟩
  · rw [Body.follow_append, ← h.body]
    rfl
  · intro n hn
    rcases List.mem_append.mp hn with old | new
    · exact (h.made n old).grow same
    · rw [List.mem_singleton.mp new]
      exact made.grow same

theorem close (h : s.Met settings tokens since before) (inside : t.Met settings tokens (s.body, s) ms) :
    State.Met settings tokens since
      { t with body := { t.body with locals := t.body.locals.take s.body.locals.length } }
      (before ++ Mention.enclose [] ms) := by
  have still : Grows tokens t
      { t with body := { t.body with locals := t.body.locals.take s.body.locals.length } } :=
    .of_same rfl rfl
  have grows := inside.grows.trans still
  refine ⟨inside.sound.grow (List.suffix_refl _) rfl rfl, h.grows.trans grows,
    inside.outer.trans h.outer, ?_, ?_⟩
  · change ({ t.body with locals := t.body.locals.take s.body.locals.length } : Body) = _
    rw [Body.follow_append, ← h.body, inside.body, Body.follow_block]
  · intro m hm
    rcases List.mem_append.mp hm with old | new
    · exact (h.made m old).grow grows
    · exact (inside.made m (Mention.mem_of_mem_enclose new)).grow still

/-- What is read in a loop is met where the loop stands. -/
theorem turn (h : s.Met settings tokens since before)
    (inside : t.Met settings tokens ({ s.body with loopDepth := s.body.loopDepth + 1 }, s) ms) :
    State.Met settings tokens since
      { t with body := { t.body with loopDepth := t.body.loopDepth - 1 } } (before ++ ms) := by
  have still : Grows tokens t
      { t with body := { t.body with loopDepth := t.body.loopDepth - 1 } } := .of_same rfl rfl
  have grows := inside.grows.trans still
  refine ⟨inside.sound.grow (List.suffix_refl _) rfl rfl, h.grows.trans grows,
    inside.outer.trans h.outer, ?_, ?_⟩
  · change ({ t.body with loopDepth := t.body.loopDepth - 1 } : Body) = _
    rw [inside.body, Body.follow_loopDepth, Nat.add_sub_cancel, ← Body.loopDepth_follow s.body ms,
      Body.follow_append, ← h.body]
  · intro m hm
    rcases List.mem_append.mp hm with old | new
    · exact (h.made m old).grow grows
    · exact (inside.made m new).grow still

end State.Met

variable (settings tokens) in
def made : Recorder where
  ι := Body × State
  holds := State.Met settings tokens
  skip skips met := met.grow (skips.sound met.sound) skips.grows skips.outer skips.body
  sink _ met := met.grow (met.sound.grow (List.suffix_refl _) rfl rfl) (.of_same rfl rfl) rfl rfl
  use x before := by
    intro since s a t met eq
    cases eq
    exact met.meet (m := .name x) trivial
  declare x before := by
    intro since s a t met eq
    cases eq
    exact met.meet (m := .declared x) trivial
  inScope inside before := by
    intro since s a t met eq
    obtain ⟨u, read, rfl⟩ := inScope_cases eq
    exact met.close (inside _ s a u (.now met.sound) read)
  inLoop inside before := by
    intro since s a t met eq
    obtain ⟨u, read, rfl⟩ := inLoop_cases eq
    have entered : State.Met settings tokens ({ s.body with loopDepth := s.body.loopDepth + 1 }, s)
        { s with body := { s.body with loopDepth := s.body.loopDepth + 1 } } [] :=
      ⟨met.sound.grow (List.suffix_refl _) rfl rfl, .of_same rfl rfl, rfl, rfl,
        fun _ none => nomatch none⟩
    exact met.turn (inside _ _ a u entered read)

section

variable {α : Type} {p : Parse α} {inside : α → List Mention}

theorem inBody_meets (h : Carries (State.Met settings tokens) [] p inside) {body : Body} {r : α × Body}
    (met : s.Met settings tokens since before) (eq : inBody body p s = .ok r t) :
    t.Met settings tokens since before ∧ r.2 = body.follow (inside r.1) ∧
      ∀ m ∈ inside r.1, Made settings tokens t m := by
  obtain ⟨u, read, inner, rfl⟩ := inBody_cases eq
  let entered : State := { s with body := body, outer := s.body :: s.outer }
  have within := h (body, entered) entered r.1 u
    (State.Met.now (s := entered) (met.sound.grow (List.suffix_refl _) rfl rfl)) read
  have outer : u.outer = s.body :: s.outer := within.outer
  have left : Grows tokens u { u with body := u.outer.headD {}, outer := u.outer.tail } :=
    .of_same rfl rfl
  refine ⟨met.grow (within.sound.grow (List.suffix_refl _) rfl rfl) ?_ ?_ ?_,
    inner.trans within.body, fun m hm => (within.made m hm).grow left⟩
  · exact within.grows.trans left
  · simp [outer]
  · simp [outer]

end

/-- A function is kept with the closures in its body, and it takes no closure's place. -/
theorem State.Met.define {f : ScriptFn} (h : s.Met settings tokens since before)
    (code : ∀ m ∈ Stmt.mentionsAll f.body, Made settings tokens s m)
    (own : Unmarked tokens → ∀ id < s.nextClosure, f.name ≠ closureName id)
    (next : s.nextClosure ≤ t.nextClosure) (rest : t.rest = s.rest)
    (functions : t.functions = s.functions.insert f.key f) (outer : t.outer = s.outer)
    (body : t.body = s.body) : t.Met settings tokens since before :=
  have grows := define_grows own next functions
  h.grow (define_sound h.sound code grows rest functions) grows outer body

section

variable {rules : Rules} (kept : (made settings tokens).Kept settings rules)
include kept

theorem closure_meets : Carries (State.Met settings tokens) before (closure rules)
    fun e => before ++ e.mentions := by
  intro since s e t met eq
  obtain ⟨v, u, pos, stmt, inner, f, skips, once, read, name, params, code, exposed, rfl, used⟩ :=
    closure_cases eq
  obtain ⟨metᵤ, followed, madeᵤ⟩ :=
    inBody_meets (Recorder.statement_records kept) ((made settings tokens).skip skips met) read
  simp only [← code] at followed madeᵤ
  -- The number of the closure is new, so its function takes no other closure's place.
  have own : Unmarked tokens → ∀ id < u.nextClosure, f.name ≠ closureName id := by
    intro _ id old same
    have := closureName_injective (name.symm.trans same)
    omega
  let n : State := { u with
    nextClosure := u.nextClosure + 1, functions := u.functions.insert f.key f }
  have metₙ : n.Met settings tokens since before :=
    metᵤ.define madeᵤ own (Nat.le_succ _) rfl rfl rfl rfl
  have foundₙ : n.functions.find? f.key = some f := Dict.find?_insert_self _ _ _
  have found : t.functions.find? f.key = some f := by
    rw [useAll_functions inner.captured used]
    exact foundₙ
  obtain ⟨k, rfl⟩ := kept.known
  have own' : Made settings tokens n (.closure pos f.name inner.captured) :=
    ⟨declaredParams s.rest, f, ⟨k, s, t, met.sound.rest, rfl, eq, found⟩, rfl,
      closes_of_follow once f followed params exposed,
      fun _ => ⟨⟨u.nextClosure, Nat.lt_succ_self _, name⟩, foundₙ⟩⟩
  have metₜ : t.Met settings tokens since _ :=
    (made settings tokens).useAll_records inner.captured since _ () t (metₙ.meet own') used
  simpa [Expr.mentions] using metₜ

theorem functionDefinition_meets (access : Access) : Carries (State.Met settings tokens) before
    (functionDefinition settings rules access) fun _ => before := by
  intro since s a t met eq
  obtain ⟨n, _, v, u, inner, f, skipsₙ, named, skips, -, -, inside, rfl⟩ := functionDefinition_cases eq
  have unmarked := functionName_unmarked (skipsₙ.sound met.sound).rest named
  obtain ⟨metᵤ, -, madeᵤ⟩ :=
    inBody_meets (Recorder.block_records kept) ((made settings tokens).skip skips met) inside
  exact metᵤ.define (made_of_enclose madeᵤ) (fun clear id _ => unmarked clear id) (Nat.le_refl _)
    rfl rfl rfl rfl

end

variable (tokens) in
theorem made_spans : (made settings tokens).Spans settings where
  closure kept _ := closure_meets kept
  definition kept _ access := functionDefinition_meets kept access

/-- Every closure in an accepted script, at the top level or in the body of a function, has its
function. -/
theorem parse_made {asExpression : Bool} {nextClosure : Nat} {r : Script}
    (h : (parse settings asExpression tokens nextClosure).1 = .ok r) :
    ∃ t : State, t.functions = r.functions ∧
      (∀ m ∈ Stmt.mentionsAll r.statements,
        Made settings (State.start tokens nextClosure).rest t m) ∧
      ∀ f ∈ r.functions, ∀ m ∈ Stmt.mentionsAll f.2.body,
        Made settings (State.start tokens nextClosure).rest t m := by
  obtain ⟨t, functions, -, keeps⟩ := Recorder.parse_records
    (made_spans (State.start tokens nextClosure).rest) (Prod.ext h rfl)
  have start : (State.start tokens nextClosure).Sound settings
      (State.start tokens nextClosure).rest :=
    ⟨List.suffix_refl _, fun f none => by cases none⟩
  have met := keeps ({}, State.start tokens nextClosure) (.now start)
  rw [← functions]
  exact ⟨t, rfl, met.made, met.sound.functions⟩

end Scripting.Grammar
