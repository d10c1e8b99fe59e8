import Scripting.Proofs.Parsing.Rules

/-
What becomes of the tokens of a script. The parser goes forward through them up to the first end
token, and an accepted script has used every one: nothing is skipped, and a fault in the characters
is never taken for something else.
-/
namespace Scripting.Grammar

/-- At least `k` tokens are taken from the front, none of them a fault; the end stays where it is. -/
def State.Forward (k : Nat) (s t : State) : Prop :=
  t.endPos = s.endPos ∧ ∃ used, k ≤ used.length ∧ s.rest = used ++ t.rest ∧ Faultless used

/-- The outcome of reading: what was read, at least `k` tokens further on, or a fault on the way. -/
def Advances {α : Type} (k : Nat) (s : State) : EStateM.Result Stop State α → Prop
  | .ok _ t => s.Forward k t
  | .error (.fault _) t => s.Forward 0 t
  | .error .exhausted _ => False

variable {tokens : List PlacedToken} {α : Type} {s t : State} {k l : Nat}

theorem State.To.forward (h : s.To tokens t) (taken : t.rest.length + k ≤ s.rest.length) :
    s.Forward k t := by
  obtain ⟨used, rest, clean⟩ := h.taken
  refine ⟨h.endPos, used, ?_, rest, clean⟩
  rw [rest, List.length_append] at taken
  omega

theorem Paced.advances {r : EStateM.Result Stop State α}
    (h : Paced tokens s (fun t => t.rest.length + k ≤ s.rest.length) r) : Advances k s r := by
  cases r with
  | ok a t => exact h.1.forward h.2
  | error e t =>
    obtain ⟨settled, onto⟩ := h
    cases e with
    | fault e => exact onto.forward onto.rest.length_le
    | exhausted => exact settled rfl

theorem Paces.advances {p : Parse α} (h : Paces s.rest 0 s.rest.length k p) :
    Advances k s (p s) :=
  (h s (List.suffix_refl _) (Nat.zero_le _) (Nat.le_refl _)).advances

theorem statement_semicolon (here : s.current.1 = .symbol .semicolon) (settings : Settings)
    (rules : Rules) (isGlobal : Bool) : statement settings rules isGlobal s = .ok none s := by
  unfold statement
  rw [bind_of_ok (currentPos_ok s),
    bind_of_ok (current_ok s), here]
  rfl

theorem Opens.advances {p : Parse (Option Stmt)} (h : Opens s.rest s.rest.length p)
    (other : s.current.1 ≠ .symbol .semicolon) : Advances 1 s (p s) := by
  refine Paced.advances ((h s (List.suffix_refl _) (Nat.le_refl _)).imp ?_)
  rintro t (taken | ⟨-, here⟩)
  · exact taken
  · exact absurd here other

/-! The end of a script. -/

theorem closed_ends (h : closed none s = .ok true t) : t.current.1.isEof = true := by
  obtain ⟨ended, u, looked, h⟩ := bind_cases h
  cases looked
  cases last : s.current.1.isEof with
  | true =>
    rw [last] at h
    cases h
    exact last
  | false =>
    rw [last] at h
    cases h

theorem statementEnd_ends {stmt : Option Stmt} (h : statementEnd stmt none s = .ok true t) :
    t.current.1.isEof = true := by
  obtain ⟨finished, u, looked, h⟩ := bind_cases h
  cases finished with
  | true =>
    cases h
    exact closed_ends looked
  | false =>
    obtain ⟨found, v, -, h⟩ := bind_cases h
    cases found with
    | true => exact closed_ends h
    | false =>
      simp only [Bool.false_eq_true, if_false] at h
      split at h
      · cases h
      · exact absurd h (failUnlessLexed_fails _ _ _ _ _)

theorem topStatements_ends {settings : Settings} {rules : Rules} {n : Nat} {found stmts : List Stmt}
    (h : topStatements settings rules n found s = .ok stmts t) : t.current.1.isEof = true := by
  induction n generalizing found s with
  | zero => cases h
  | succ n ih =>
    obtain ⟨ended, u, looked, h⟩ := bind_cases h
    cases looked
    cases last : s.current.1.isEof with
    | true =>
      rw [last] at h
      cases h
      exact last
    | false =>
      rw [last] at h
      obtain ⟨stmt, v, -, h⟩ := bind_cases h
      obtain ⟨done, w, stopped, h⟩ := bind_cases h
      cases done with
      | true =>
        cases h
        exact statementEnd_ends stopped
      | false => exact ih h

theorem script_ends {settings : Settings} {script : Script}
    (h : Grammar.script settings s = .ok script t) : t.current.1.isEof = true := by
  obtain ⟨n, u, looked, h⟩ := bind_cases h
  cases looked
  obtain ⟨stmts, v, read, h⟩ := bind_cases h
  cases h
  exact topStatements_ends read

theorem singleExpression_ends {settings : Settings} {script : Script}
    (h : singleExpression settings s = .ok script t) : t.current.1.isEof = true := by
  obtain ⟨pos, u, looked, h⟩ := bind_cases h
  cases looked
  obtain ⟨n, u, looked, h⟩ := bind_cases h
  cases looked
  obtain ⟨e, v, read, h⟩ := bind_cases h
  obtain ⟨ended, w, looked, h⟩ := bind_cases h
  cases looked
  cases last : v.current.1.isEof with
  | true =>
    rw [last] at h
    cases h
    exact last
  | false =>
    rw [last] at h
    obtain ⟨_, x, refused, h⟩ := bind_cases h
    exact absurd refused (unexpected_fails _ _ _)

def whole (settings : Settings) (asExpression : Bool) : Parse Script :=
  if asExpression then singleExpression settings else script settings

theorem whole_advances (settings : Settings) (asExpression : Bool) (s : State) :
    Advances 0 s (whole settings asExpression s) := by
  unfold whole
  cases asExpression with
  | true => exact (singleExpression_paces settings).advances
  | false => exact (script_paces settings).advances

theorem whole_ends {settings : Settings} {asExpression : Bool} {script : Script}
    (h : whole settings asExpression s = .ok script t) : t.current.1.isEof = true := by
  unfold whole at h
  cases asExpression with
  | true => exact singleExpression_ends h
  | false => exact script_ends h

theorem whole_functions {settings : Settings} {asExpression : Bool} {script : Script}
    (h : whole settings asExpression s = .ok script t) : t.functions = script.functions := by
  unfold whole at h
  cases asExpression with
  | true => exact singleExpression_functions h
  | false => exact script_functions h

theorem parse_whole {settings : Settings} {asExpression : Bool} {nextClosure : Nat} {script : Script}
    (h : (parse settings asExpression tokens nextClosure).1 = .ok script) :
    ∃ t, whole settings asExpression (State.start tokens nextClosure) = .ok script t := by
  unfold parse at h
  dsimp only at h
  split at h
  · next read =>
    cases h
    exact ⟨_, read⟩
  · cases h

theorem rest_nil {used : List PlacedToken} (split : tokens.takeWhile (!·.1.isEof) = used ++ s.rest)
    (ended : s.current.1.isEof = true) : s.rest = [] := by
  cases rest : s.rest with
  | nil => rfl
  | cons first later =>
    have there : first ∈ tokens.takeWhile (!·.1.isEof) := by
      rw [split, rest]
      exact List.mem_append_right used List.mem_cons_self
    have before := List.all_eq_true.mp List.all_takeWhile _ there
    have same : s.current = first := by simp [State.current, rest]
    rw [same] at ended
    simp [ended] at before

/-- Whatever the tokens are: reading ends, by going forward through the tokens before the first end
token. If a script is accepted, all of them have been taken, and none of them is a fault. On the
way, every expression, block and statement takes a token, except for the empty statement, which
leaves its semicolon to the list of statements. -/
theorem every_token_is_taken (settings : Settings) :
    (∀ asExpression tokens nextClosure,
      let start := State.start tokens nextClosure
      Advances 0 start (whole settings asExpression start) ∧
      ∀ script, (parse settings asExpression tokens nextClosure).1 = .ok script →
        ∃ t, whole settings asExpression start = .ok script t ∧ t.rest = [] ∧
          Faultless (tokens.takeWhile (!·.1.isEof))) ∧
    ∀ (s : State) more,
      let rules := rulesAt settings (nestingBound s.rest.length + more)
      Advances 1 s (rules.expression s) ∧ Advances 1 s (rules.block s) ∧
      ∀ isGlobal,
        (s.current.1 = .symbol .semicolon → statement settings rules isGlobal s = .ok none s) ∧
        (s.current.1 ≠ .symbol .semicolon → Advances 1 s (statement settings rules isGlobal s)) := by
  refine ⟨fun asExpression tokens nextClosure => ?_, fun s more => ?_⟩
  · have advances := whole_advances settings asExpression (State.start tokens nextClosure)
    refine ⟨advances, fun script accepted => ?_⟩
    obtain ⟨t, read⟩ := parse_whole accepted
    rw [read] at advances
    obtain ⟨-, used, -, split, clean⟩ := advances
    have none : t.rest = [] := rest_nil split (whole_ends read)
    refine ⟨t, read, none, ?_⟩
    have all : tokens.takeWhile (!·.1.isEof) = used := by
      rw [none, List.append_nil] at split
      exact split
    rwa [all]
  · have pace : (rulesAt settings (nestingBound s.rest.length + more)).Pace s.rest _ :=
      rulesAt_pace settings _
    have room : 2 * s.rest.length + 2 ≤ nestingBound s.rest.length + more := by
      unfold nestingBound
      omega
    refine ⟨(pace.expression _ room).advances, (pace.block _ (by omega)).advances, ?_⟩
    intro isGlobal
    exact ⟨fun here => statement_semicolon here settings _ isGlobal,
      fun other => (statement_opens pace settings isGlobal (by omega)).advances other⟩

end Scripting.Grammar
