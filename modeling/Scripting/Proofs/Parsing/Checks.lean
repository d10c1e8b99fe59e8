import Scripting.Proofs.Capture.State
import Scripting.Proofs.Parsing.Statement

/-
What is known of all code that has been read. The parser checks it in many places, each time only the
expression or statement that it has just put together; what was checked stays true, since no function
is ever taken out of the table and the body that is being read keeps its kind.
-/
namespace Scripting

def Defines (functions : Dict FnKey ScriptFn) (key : FnKey) : Prop :=
  ∃ f, functions.find? key = some f ∧ f.key = key

theorem defines_insert (functions : Dict FnKey ScriptFn) (f : ScriptFn) :
    Defines (functions.insert f.key f) f.key :=
  ⟨f, Dict.find?_insert_self _ _ _, rfl⟩

theorem Defines.insert {functions : Dict FnKey ScriptFn} {key : FnKey} (h : Defines functions key)
    (f : ScriptFn) : Defines (functions.insert f.key f) key := by
  by_cases same : key = f.key
  · exact same ▸ defines_insert functions f
  · obtain ⟨g, found, named⟩ := h
    exact ⟨g, (Dict.find?_insert_of_ne same _ _).trans found, named⟩

namespace Grammar

/-- What the parser makes sure of: loops are left and repeated only from inside, closures go by
their numbers, and literals are among those that the script contains. -/
def rule (literals : Token → Prop) : Rule
  | _, .expr (.string _ t) => literals (.string t)
  | _, .expr (.char _ c) => literals (.char c)
  | _, .expr (.closure _ name _) => ∃ id, name = closureName id
  | looping, .stmt (.breakLoop _) => looping = true
  | looping, .stmt (.continueLoop _) => looping = true
  | _, _ => True

/-- What it makes sure of inside of blocks and functions, where nothing is exported either. -/
def innerRule (literals : Token → Prop) : Rule
  | _, .stmt (.exportNames ..) => False
  | looping, c => rule literals looping c

theorem rule_of_innerRule {literals : Token → Prop} (looping : Bool) (c : Code)
    (h : innerRule literals looping c) : rule literals looping c := by
  unfold innerRule at h
  split at h
  · exact h.elim
  · exact h

theorem rule_mono {literals literals' : Token → Prop} (more : ∀ token, literals token → literals' token)
    (looping : Bool) (c : Code) (h : rule literals looping c) : rule literals' looping c := by
  unfold rule at h ⊢
  split at h
  · exact more _ h
  · exact more _ h
  all_goals exact h

variable (settings : Settings) (tokens : List PlacedToken)

/-- A closure has its function: one with as many parameters as the closure captures and declares where
it was read. -/
def HasFunction (functions : Dict FnKey ScriptFn) (pos : Position) (name : Text)
    (captured : List Text) : Prop :=
  ∃ declared f, Generates settings tokens (.closure pos name captured) declared f ∧
    f.name = name ∧ f.params = captured ++ declared ∧
      Defines functions ⟨name, captured.length + declared.length⟩

def Among (token : Token) : Prop := ∃ pos, (token, pos) ∈ tokens

/-- What is known of an expression or a statement of a script with these functions, inside or outside
of a function. -/
def WellFormed (functions : Dict FnKey ScriptFn) (inFunction : Bool) : Code → Prop
  | .expr (.this _) => inFunction = true
  | .expr (.map _ entries) => (entries.map (·.1)).Nodup
  | .expr (.index _ _ index) => MayIndex index
  | .expr (.closure pos name captured) => HasFunction settings tokens functions pos name captured
  | .stmt (.assign _ _ target _) => target.Assignable
  | _ => True

/-- What is known of code inside of a script with these tokens and functions. -/
def checked (functions : Dict FnKey ScriptFn) (inFunction : Bool) : Rule := fun looping c =>
  innerRule (Among tokens) looping c ∧ WellFormed settings tokens functions inFunction c

structure SoundFn (functions : Dict FnKey ScriptFn) (f : ScriptFn) : Prop where
  once : f.params.Nodup
  body : f.Obeys (checked settings tokens functions true)

/-- So far the parse has been through these tokens, and the functions that it has read are fine. -/
structure State.Checked (s : State) : Prop where
  rest : s.rest <:+ tokens
  functions : ∀ entry ∈ s.functions, SoundFn settings tokens s.functions entry.2

/-- A later state in the same body: no function is gone, what was in scope still is, and of that nothing
has been captured since. -/
structure State.Leads (s t : State) : Prop where
  defines : ∀ key, Defines s.functions key → Defines t.functions key
  allowThis : t.body.allowThis = s.body.allowThis
  loopDepth : t.body.loopDepth = s.body.loopDepth
  outer : t.outer = s.outer
  locals : s.body.locals <+: t.body.locals
  apart : ∀ params, params <+: s.body.locals → (s.body.captured ++ params).Nodup →
    (t.body.captured ++ params).Nodup

/-- Code as it stands in the body that is being read, or, if it was read in a loop of its own, in that
loop. -/
def State.Claims (s : State) (note : Bool × Code) : Prop :=
  Obeys (checked settings tokens s.functions s.body.allowThis)
    (note.1 || decide (0 < s.body.loopDepth)) note.2

structure State.Kept (since s : State) (notes : List (Bool × Code)) : Prop where
  checked : s.Checked settings tokens
  leads : since.Leads s
  claims : ∀ note ∈ notes, s.Claims settings tokens note

variable {settings tokens} {since s t u : State}
  {functions : Dict FnKey ScriptFn} {inFunction : Bool} {c : Code} {α : Type}
  {before notes : List (Bool × Code)}

theorem WellFormed.mono {functions' : Dict FnKey ScriptFn}
    (more : ∀ key, Defines functions key → Defines functions' key)
    (h : WellFormed settings tokens functions inFunction c) :
    WellFormed settings tokens functions' inFunction c := by
  cases c with
  | expr e =>
    cases e with
    | closure pos name captured =>
      obtain ⟨declared, f, generates, named, params, defined⟩ := h
      exact ⟨declared, f, generates, named, params, more _ defined⟩
    | _ => exact h
  | stmt stmt => cases stmt <;> exact h

theorem checked_mono {functions' : Dict FnKey ScriptFn} {looping : Bool}
    (more : ∀ key, Defines functions key → Defines functions' key)
    (h : Obeys (checked settings tokens functions inFunction) looping c) :
    Obeys (checked settings tokens functions' inFunction) looping c :=
  h.mono fun _ _ here => ⟨here.1, here.2.mono more⟩

theorem SoundFn.mono {functions' : Dict FnKey ScriptFn} {f : ScriptFn}
    (more : ∀ key, Defines functions key → Defines functions' key)
    (h : SoundFn settings tokens functions f) :
    SoundFn settings tokens functions' f :=
  ⟨h.once, fun stmt there => checked_mono more (h.body stmt there)⟩

namespace State.Leads

theorem trans (h : s.Leads t) (h' : t.Leads u) : s.Leads u where
  defines key defined := h'.defines key (h.defines key defined)
  allowThis := h'.allowThis.trans h.allowThis
  loopDepth := h'.loopDepth.trans h.loopDepth
  outer := h'.outer.trans h.outer
  locals := h.locals.trans h'.locals
  apart params scope once := h'.apart params (scope.trans h.locals) (h.apart params scope once)

theorem of_same (functions : t.functions = s.functions) (outer : t.outer = s.outer)
    (allowThis : t.body.allowThis = s.body.allowThis) (loopDepth : t.body.loopDepth = s.body.loopDepth)
    (captured : t.body.captured = s.body.captured) (locals : s.body.locals <+: t.body.locals) :
    s.Leads t where
  defines _ defined := functions ▸ defined
  allowThis := allowThis
  loopDepth := loopDepth
  outer := outer
  locals := locals
  apart _ _ once := captured ▸ once

theorem refl (s : State) : s.Leads s := .of_same rfl rfl rfl rfl rfl (List.prefix_refl _)

theorem use (s : State) (name : Text) : s.Leads { s with body := s.body.use name } := by
  unfold Body.use
  split
  · exact .refl s
  · next new =>
    refine ⟨fun _ defined => defined, rfl, rfl, rfl, List.prefix_refl _, fun params scope once => ?_⟩
    have unseen : name ∉ s.body.captured ++ params := by
      intro seen
      rcases List.mem_append.mp seen with captured | param
      · exact new (by simp [captured])
      · exact new (by simp [scope.subset param])
    have moved : (s.body.captured ++ [name] ++ params).Perm (name :: (s.body.captured ++ params)) := by
      rw [List.append_assoc]
      exact List.perm_middle
    exact moved.nodup_iff.mpr (List.nodup_cons.mpr ⟨unseen, once⟩)

end State.Leads

theorem State.Skips.leads (h : s.Skips t) : s.Leads t :=
  .of_same h.functions h.outer (by rw [h.body]) (by rw [h.body]) (by rw [h.body])
    (h.body ▸ List.prefix_refl _)

theorem State.Checked.of_same (h : s.Checked settings tokens) (rest : t.rest <:+ s.rest)
    (functions : t.functions = s.functions) : t.Checked settings tokens :=
  ⟨rest.trans h.rest, functions ▸ h.functions⟩

theorem State.Claims.lead {note : Bool × Code} (h : s.Claims settings tokens note)
    (leads : s.Leads t) : t.Claims settings tokens note := by
  unfold State.Claims at h ⊢
  rw [leads.allowThis, leads.loopDepth]
  exact checked_mono leads.defines h

namespace State.Kept

theorem now (checked : s.Checked settings tokens) : State.Kept settings tokens s s [] :=
  ⟨checked, .refl s, fun _ none => nomatch none⟩

theorem go (h : State.Kept settings tokens since s notes)
    (checked : t.Checked settings tokens) (leads : s.Leads t) :
    State.Kept settings tokens since t notes :=
  ⟨checked, h.leads.trans leads, fun note there => (h.claims note there).lead leads⟩

theorem add (h : State.Kept settings tokens since s before)
    (checked : t.Checked settings tokens) (leads : s.Leads t)
    (claims : ∀ note ∈ notes, t.Claims settings tokens note) :
    State.Kept settings tokens since t (before ++ notes) :=
  ⟨checked, h.leads.trans leads, List.forall_mem_append.mpr ⟨(h.go checked leads).claims, claims⟩⟩

end State.Kept

theorem checked_builds {e : Expr} (h : Builds settings (Among tokens) s e) (looping : Bool) :
    checked settings tokens functions s.body.allowThis looping (.expr e) := by
  cases e with
  | string | char => exact ⟨h, trivial⟩
  | this | map | index => exact ⟨trivial, h⟩
  | closure => exact h.elim
  | _ => exact ⟨trivial, trivial⟩

theorem checked_completes (h : Completes s c) :
    checked settings tokens functions inFunction (decide (0 < s.body.loopDepth)) c := by
  cases c with
  | expr e =>
    cases e with
    | block | branch => exact ⟨trivial, trivial⟩
    | _ => exact h.elim
  | stmt stmt =>
    cases stmt with
    | assign => exact ⟨trivial, h⟩
    | breakLoop | continueLoop => exact ⟨decide_eq_true h, trivial⟩
    | exportNames => exact h.elim
    | _ => exact ⟨trivial, trivial⟩

/-- Code that has been put together from what obeys the rule obeys it if it does so itself. -/
theorem State.Kept.put {parts : List (Bool × Code)}
    (h : State.Kept settings tokens since s (before ++ parts)) (made : outline.made c = parts)
    (here : Grammar.checked settings tokens s.functions s.body.allowThis
      (decide (0 < s.body.loopDepth)) c) :
    State.Kept settings tokens since s (before ++ [(false, c)]) := by
  obtain ⟨checked, leads, claims⟩ := h
  rw [← made, outline_made] at claims
  obtain ⟨old, own⟩ := List.forall_mem_append.mp claims
  obtain ⟨parts, turns⟩ := List.forall_mem_append.mp own
  refine ⟨checked, leads, List.forall_mem_append.mpr ⟨old, List.forall_mem_singleton.mpr ?_⟩⟩
  exact .intro here (fun p there => parts _ (List.mem_map_of_mem there))
    fun p there => turns _ (List.mem_map_of_mem there)

variable (settings tokens) in
def checks : Ledger settings where
  toShorthand := outline
  ι := State
  holds := State.Kept settings tokens
  literals := Among tokens
  known kept token there := ⟨token.2, kept.checked.rest.mem there⟩
  skip skips kept := kept.go (kept.checked.of_same skips.rest skips.functions) skips.leads
  sink _ kept := kept.go (kept.checked.of_same (List.suffix_refl _) rfl)
    (.of_same rfl rfl rfl rfl rfl (List.prefix_refl _))
  use x before := by
    intro since s a t kept eq
    cases eq
    exact kept.add (kept.checked.of_same (List.suffix_refl _) rfl) (.use s x) fun _ none => nomatch none
  declare x before := by
    intro since s a t kept eq
    cases eq
    exact kept.add (kept.checked.of_same (List.suffix_refl _) rfl)
      (.of_same rfl rfl rfl rfl rfl (List.prefix_append _ _)) fun _ none => nomatch none
  inScope inside before := by
    intro since s a t kept eq
    obtain ⟨u, read, rfl⟩ := inScope_cases eq
    obtain ⟨checked, leads, claims⟩ := inside s s a u (.now kept.checked) read
    have locals : s.body.locals <+: u.body.locals.take s.body.locals.length := by
      refine ⟨[], ?_⟩
      rw [List.append_nil]
      exact List.prefix_iff_eq_take.mp leads.locals
    exact kept.add (checked.of_same (List.suffix_refl _) rfl)
      ⟨leads.defines, leads.allowThis, leads.loopDepth, leads.outer, locals, leads.apart⟩ claims
  inLoop inside before := by
    intro since s a t kept eq
    obtain ⟨u, read, rfl⟩ := inLoop_cases eq
    obtain ⟨checked, leads, claims⟩ := inside _ _ a u
      (.now (s := { s with body := { s.body with loopDepth := s.body.loopDepth + 1 } })
        (kept.checked.of_same (List.suffix_refl _) rfl)) read
    have depth : u.body.loopDepth = s.body.loopDepth + 1 := leads.loopDepth
    refine kept.add (checked.of_same (List.suffix_refl _) rfl) ⟨leads.defines, leads.allowThis, ?_,
      leads.outer, leads.locals, leads.apart⟩ fun note there => ?_
    · simp [depth]
    · obtain ⟨inner, mem, rfl⟩ := List.mem_map.mp there
      have claim := claims inner mem
      unfold State.Claims at claim ⊢
      simpa [depth] using claim
  number number kept := ⟨kept.checked, kept.leads, (List.forall_mem_append.mp kept.claims).1⟩
  builds built kept := kept.put rfl (checked_builds built _)

section

variable {p : Parse α} {after : α → List (Bool × Code)}

/-- The body of a function: `this` may stand in it, and what it captures are no parameters. -/
theorem inBody_checks (h : Carries (State.Kept settings tokens) [] p after) {params : List Text}
    {r : α × Body} (checked : s.Checked settings tokens) (once : params.Nodup)
    (eq : inBody { locals := params, allowThis := true } p s = .ok r t) :
    t.Checked settings tokens ∧ s.Leads t ∧ (r.2.captured ++ params).Nodup ∧
      ∀ stmt, (false, .stmt stmt) ∈ after r.1 →
        Obeys (Grammar.checked settings tokens t.functions true) false (.stmt stmt) := by
  obtain ⟨u, read, inner, rfl⟩ := inBody_cases eq
  rw [inner]
  obtain ⟨checked', leads, claims⟩ := h _ { s with
    body := { locals := params, allowThis := true }, outer := s.body :: s.outer } _ u
    (.now (checked.of_same (List.suffix_refl _) rfl)) read
  have around : u.outer = s.body :: s.outer := leads.outer
  refine ⟨checked'.of_same (List.suffix_refl _) rfl, ?_, ?_, ?_⟩
  · refine ⟨leads.defines, ?_, ?_, ?_, ?_, fun params scope once => ?_⟩
    · simp [around]
    · simp [around]
    · simp [around]
    · simp [around]
    · simpa [around] using once
  · exact leads.apart params (List.prefix_refl _) once
  · intro stmt there
    have claim := claims _ there
    have allowed : u.body.allowThis = true := leads.allowThis
    have outside : u.body.loopDepth = 0 := leads.loopDepth
    unfold State.Claims at claim
    rwa [allowed, outside] at claim

theorem insert_checks {f : ScriptFn} (checked : s.Checked settings tokens)
    (sound : SoundFn settings tokens s.functions f) (next : Nat) :
    State.Checked settings tokens
        { s with nextClosure := next, functions := s.functions.insert f.key f } ∧
      s.Leads { s with nextClosure := next, functions := s.functions.insert f.key f } := by
  have more : ∀ key, Defines s.functions key → Defines (s.functions.insert f.key f) key :=
    fun _ defined => defined.insert f
  refine ⟨⟨checked.rest, fun entry there => ?_⟩, more, rfl, rfl, rfl, List.prefix_refl _, fun _ _ => id⟩
  rcases Dict.mem_insert there with rfl | old
  · exact sound.mono more
  · exact (checked.functions entry old).mono more

end

section

variable {rules : Rules} (kept : (checks settings tokens).Kept rules)
include kept

theorem statement_checks : Carries (State.Kept settings tokens) [] rules.statement
    fun s => (s.toList.map Code.stmt).map fun c => (false, c) :=
  Carries.congr (kept.statement []) fun _ => (outline_stmts _).symm

theorem block_checks : Carries (State.Kept settings tokens) [] (block settings rules)
    fun b => (b.2.map Code.stmt).map fun c => (false, c) :=
  Carries.congr (block_carries kept) fun _ => (outline_stmts _).symm

theorem closure_checks : (checks settings tokens).CarriesExpr before (closure rules) := by
  intro since s e t held eq
  obtain ⟨v, u, pos, stmt, inner, f, skips, once, read, name, params, code, -, rfl, used⟩ :=
    closure_cases eq
  have heldᵥ := (checks settings tokens).skip skips held
  obtain ⟨checkedᵤ, leadsᵤ, apart, obeys⟩ :=
    inBody_checks (statement_checks kept) heldᵥ.checked once read
  have sound : SoundFn settings tokens u.functions f :=
    ⟨params ▸ apart, fun stmt there => obeys stmt (List.mem_map_of_mem (List.mem_map_of_mem (code ▸ there)))⟩
  obtain ⟨checkedₙ, leadsₙ⟩ := insert_checks checkedᵤ sound (u.nextClosure + 1)
  have heldₙ := (heldᵥ.go checkedᵤ leadsᵤ).go checkedₙ leadsₙ
  have heldₜ := useAll_carries (L := checks settings tokens) inner.captured since _ () t heldₙ used
  have found : t.functions.find? f.key = some f := by
    rw [useAll_functions inner.captured used]
    exact Dict.find?_insert_self _ _ _
  have key : f.key = ⟨f.name, inner.captured.length + (declaredParams s.rest).length⟩ := by
    rw [ScriptFn.key, params, List.length_append]
  obtain ⟨n, rfl⟩ := kept.known
  have own : HasFunction settings tokens t.functions pos f.name inner.captured :=
    ⟨declaredParams s.rest, f, ⟨n, s, t, held.checked.rest, rfl, eq, found⟩, rfl, params, f,
      key ▸ found, key⟩
  refine ⟨heldₜ.checked, heldₜ.leads, List.forall_mem_append.mpr
    ⟨(List.forall_mem_append.mp heldₜ.claims).1, List.forall_mem_singleton.mpr ?_⟩⟩
  exact .intro ⟨⟨_, name⟩, own⟩ (by simp [Code.parts]) (by simp [Code.turns])

theorem functionDefinition_checks (access : Access) : Carries (State.Kept settings tokens) before
    (functionDefinition settings rules access) fun _ => before := by
  intro since s a t held eq
  obtain ⟨-, -, v, u, inner, f, -, -, skips, -, once, inside, rfl⟩ := functionDefinition_cases eq
  have heldᵥ := (checks settings tokens).skip skips held
  obtain ⟨checkedᵤ, leadsᵤ, -, obeys⟩ :=
    inBody_checks (block_checks kept) heldᵥ.checked once inside
  have sound : SoundFn settings tokens u.functions f :=
    ⟨once, fun stmt there => obeys stmt (List.mem_map_of_mem (List.mem_map_of_mem there))⟩
  obtain ⟨checkedₜ, leadsₜ⟩ := insert_checks checkedᵤ sound u.nextClosure
  exact (heldᵥ.go checkedᵤ leadsᵤ).go checkedₜ leadsₜ

end

variable (settings tokens) in
theorem checks_spans : (checks settings tokens).Spans where
  completes done kept := kept.put rfl (checked_completes done)
  closure kept _ := closure_checks kept
  definition kept _ access := functionDefinition_checks kept access

/-- All code of an accepted script is checked, apart from its exports. -/
theorem parse_checks {asExpression : Bool} {nextClosure : Nat} {r : Script}
    (h : (parse settings asExpression tokens nextClosure).1 = .ok r) :
    (∀ stmt ∈ r.statements, (∃ pos names, stmt = .exportNames pos names) ∨
      Obeys (checked settings (State.start tokens nextClosure).rest r.functions false) false
        (.stmt stmt)) ∧
    ∀ entry ∈ r.functions,
      SoundFn settings (State.start tokens nextClosure).rest r.functions entry.2 := by
  have start : State.Checked settings (State.start tokens nextClosure).rest
      (State.start tokens nextClosure) := ⟨List.suffix_refl _, fun _ none => nomatch none⟩
  obtain ⟨t, functions, -, keeps⟩ :=
    parse_carries (checks_spans settings (State.start tokens nextClosure).rest) (Prod.ext h rfl)
  obtain ⟨checked, leads, claims⟩ := keeps _ (.now start)
  have outside : t.body.allowThis = false := leads.allowThis
  have depth : t.body.loopDepth = 0 := leads.loopDepth
  refine ⟨fun stmt there => ?_, functions ▸ checked.functions⟩
  have all : ∀ note ∈ outline.placed true stmt, t.Claims settings (State.start tokens nextClosure).rest
      note := fun note mem => claims note (List.mem_flatMap.mpr ⟨stmt, there, mem⟩)
  cases stmt with
  | exportNames pos names => exact .inl ⟨pos, names, rfl⟩
  | _ =>
    have claim := List.forall_mem_singleton.mp all
    unfold State.Claims at claim
    rw [outside, depth, functions] at claim
    exact .inr claim

theorem parse_obeys {asExpression : Bool} {literals : Token → Prop}
    (given : ∀ token pos, (token, pos) ∈ tokens → literals token) {nextClosure next : Nat} {r : Script}
    (h : parse settings asExpression tokens nextClosure = (.ok r, next)) : r.Obeys (rule literals) := by
  have among : ∀ token, Among (State.start tokens nextClosure).rest token → literals token :=
    fun token ⟨pos, there⟩ => given token pos (List.takeWhile_subset _ there)
  obtain ⟨statements, functions⟩ := parse_checks (congrArg Prod.fst h)
  refine ⟨fun stmt there => ?_, fun entry there stmt inside => ?_⟩
  · rcases statements stmt there with ⟨pos, names, rfl⟩ | obeys
    · exact .intro trivial (by simp [Code.parts]) (by simp [Code.turns])
    · exact obeys.mono fun looping c here =>
        rule_mono among looping c (rule_of_innerRule looping c here.1)
  · exact ((functions entry there).body stmt inside).mono fun looping c here =>
      rule_mono among looping c (rule_of_innerRule looping c here.1)

end Grammar

end Scripting
