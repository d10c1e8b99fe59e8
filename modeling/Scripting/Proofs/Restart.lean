import Scripting.Proofs.Foresight
import Scripting.Proofs.Pieces

/-
Reading that goes on in another text. A reader that has stopped inside a block comment knows how many
comments are open, and nothing else of what it has read. This is enough unless the text ends in a slash
or a star that has nothing to go with it: this character is forgotten. If it came first in the next
text, the tokens would be those of both texts together.
-/
namespace Scripting.Scan

open Literal (newline)

variable {input : List CodePoint} {state : ScanState} {pos : Position}

/-! ### Places do not matter -/

def Step.content (step : Step) : Option Token × ScanState × List CodePoint :=
  (step.token.map Prod.fst, step.state, step.rest)

theorem Step.remember_content {s t : Step} (same : s.content = t.content) :
    s.remember.content = t.remember.content := by
  obtain ⟨token, state, pos, rest⟩ := s
  obtain ⟨token', state', pos', rest'⟩ := t
  simp only [content, Prod.mk.injEq] at same
  obtain ⟨tokens, rfl, rfl⟩ := same
  cases token with
  | none =>
    cases token' with
    | none => rfl
    | some found => cases tokens
  | some found =>
    cases token' with
    | none => cases tokens
    | some found' =>
      obtain ⟨token, start⟩ := found
      obtain ⟨token', start'⟩ := found'
      cases tokens
      rfl

theorem lineComment_anywhere (text text' : Text) (pos pos' : Position) (input : List CodePoint) :
    (lineComment text pos input).level = 0 ∧
      (lineComment text pos input).rest = (lineComment text' pos' input).rest := by
  induction input generalizing text text' pos pos' with
  | nil => exact ⟨rfl, rfl⟩
  | cons c rest ih =>
    unfold lineComment
    split
    · exact ⟨rfl, rfl⟩
    · exact ih _ _ _ _

theorem blockComment_anywhere (level : Nat) (text text' : Text) (pos pos' : Position)
    (input : List CodePoint) :
    (blockComment level text pos input).level = (blockComment level text' pos' input).level ∧
      (blockComment level text pos input).rest = (blockComment level text' pos' input).rest := by
  obtain ⟨sameLevel, sameRest⟩ := blockComment_extent level text pos input
  obtain ⟨sameLevel', sameRest'⟩ := blockComment_extent level text' pos' input
  exact ⟨sameLevel.trans sameLevel'.symm, sameRest.trans sameRest'.symm⟩

theorem afterComment_skips (skips : state.keepComments = false) (start : Position) (found : CommentEnd) :
    afterComment state start found =
      nextFrom { state with commentLevel := found.level } found.pos found.rest := by
  unfold afterComment
  exact if_neg (by simp [skips])

theorem nextFrom_anywhere (skips : state.keepComments = false)
    (outside : input ≠ [] → state.commentLevel = 0) (pos pos' : Position) :
    (nextFrom state pos input).content = (nextFrom state pos' input).content := by
  induction size : input.length using Nat.strongRecOn generalizing state pos pos' input with
  | ind size ih =>
    subst size
    cases begins input with
    | nothing =>
      rw [nextFrom, nextFrom]
      unfold endStep Step.content
      cases state.endSilently <;> rfl
    | @lineEnd rest =>
      rw [nextFrom_lineEnd, nextFrom_lineEnd]
      exact ih _ (Nat.lt_succ_self _) skips (fun _ => outside (List.cons_ne_nil _ _)) _ _ rfl
    | @blank c rest plain blank =>
      rw [nextFrom_isBlank plain blank, nextFrom_isBlank plain blank]
      exact ih _ (Nat.lt_succ_self _) skips (fun _ => outside (List.cons_ne_nil _ _)) _ _ rfl
    | @line rest =>
      have closed := outside (List.cons_ne_nil _ _)
      obtain ⟨level, left⟩ := lineComment_anywhere (Text.lit "//") (Text.lit "//")
        pos.advance.advance pos'.advance.advance rest
      obtain ⟨level', -⟩ := lineComment_anywhere (Text.lit "//") (Text.lit "//")
        pos'.advance.advance pos.advance.advance rest
      have shorter := lineComment_rest_length_le (Text.lit "//") pos'.advance.advance rest
      rw [nextFrom_lineComment state closed, nextFrom_lineComment state closed,
        afterComment_skips skips, afterComment_skips skips, level, level', left]
      refine ih _ ?_ (by exact skips) (fun _ => rfl) _ _ rfl
      simp only [List.length_cons]
      omega
    | @block rest =>
      obtain ⟨level, left⟩ := blockComment_anywhere 1 (Text.lit "/*") (Text.lit "/*")
        pos.advance.advance pos'.advance.advance rest
      have shorter := blockComment_rest_length_le 1 (Text.lit "/*") pos'.advance.advance rest
      rw [nextFrom_blockComment, nextFrom_blockComment, afterComment_skips skips,
        afterComment_skips skips, level, left]
      refine ih _ ?_ (by exact skips) (fun more => blockComment_closed Nat.one_ne_zero more) _ _ rfl
      simp only [List.length_cons]
      omega
    | token opens =>
      obtain ⟨text, token, rest, taken⟩ := taken_of_opens state opens
      obtain ⟨start, after, read, -⟩ := taken.reads pos
      obtain ⟨start', after', read', -⟩ := taken.reads pos'
      rw [read, read']
      rfl

/-- What follows a comment depends on where the comment ends, and on nothing else of it. -/
theorem afterComment_anywhere (skips : state.keepComments = false) {found found' : CommentEnd}
    (closed : found'.rest ≠ [] → found'.level = 0) (level : found.level = found'.level)
    (rest : found.rest = found'.rest) (start start' : Position) :
    (afterComment state start found).content = (afterComment state start' found').content := by
  rw [afterComment_skips skips, afterComment_skips skips, level, rest]
  exact nextFrom_anywhere (by exact skips) closed _ _

theorem next_anywhere (skips : state.keepComments = false) (pos pos' : Position)
    (input : List CodePoint) : (next state pos input).content = (next state pos' input).content := by
  by_cases outside : state.commentLevel = 0
  · rw [next_outside outside, next_outside outside]
    exact Step.remember_content (nextFrom_anywhere skips (fun _ => outside) _ _)
  · rw [next_inside outside, next_inside outside]
    obtain ⟨level, rest⟩ := blockComment_anywhere state.commentLevel [] [] pos pos' input
    exact Step.remember_content (afterComment_anywhere skips (blockComment_closed outside) level rest _ _)

/-! ### Stopping inside a comment -/

/-- What a comment that goes on has to be told of a text again: nothing, or a slash or a star that is
its last character. -/
inductive Pending (input : List CodePoint) : List CodePoint → Prop where
  | nothing : Pending input []
  | torn {c : CodePoint} (mark : c = slash ∨ c = star) (last : input.getLast? = some c) :
      Pending input [c]

theorem Pending.of_suffix {left rest : List CodePoint} (h : Pending rest left) (suffix : rest <:+ input) :
    Pending input left := by
  cases h with
  | nothing => exact .nothing
  | torn mark last =>
    obtain ⟨front, rfl⟩ := suffix
    exact .torn mark (by rw [List.getLast?_append, last]; rfl)

theorem blockComment_goesOn {level : Nat} {text : Text} (inside : level ≠ 0)
    (open' : (blockComment level text pos input).level ≠ 0) :
    (blockComment level text pos input).rest = [] ∧ ∃ left, Pending input left ∧ ∀ later text' pos',
      let whole := blockComment level text pos (input ++ later)
      let again := blockComment (blockComment level text pos input).level text' pos' (left ++ later)
      whole.level = again.level ∧ whole.rest = again.rest := by
  fun_induction blockComment level text pos input with
  | case1 level text pos =>
    exact ⟨rfl, [], .nothing, fun later text' pos' => blockComment_anywhere _ _ _ _ _ _⟩
  | case2 level text pos c pos' text' pair =>
    exact ⟨rfl, [c], .torn pair rfl, fun later text' pos' => blockComment_anywhere _ _ _ _ _ _⟩
  | case3 level text pos c pos' text' pair d rest text'' deeper ended => exact absurd rfl open'
  | case4 level text pos c pos' text' pair d rest text'' deeper still ih =>
    obtain ⟨used, left, pending, goesOn⟩ := ih still open'
    have behind := (List.suffix_cons d rest).trans (List.suffix_cons c _)
    refine ⟨used, left, pending.of_suffix behind, fun later text₁ pos₁ => ?_⟩
    have entered : blockComment level text pos (c :: d :: (rest ++ later)) =
        blockComment deeper text'' pos'.advance (rest ++ later) := by
      rw [blockComment, if_pos pair]
      exact if_neg still
    rw [List.cons_append, List.cons_append, entered]
    exact goesOn later text₁ pos₁
  | case5 text pos c rest pos' text' single => exact absurd rfl inside
  | case6 level text pos c rest pos' text' single still ih =>
    obtain ⟨used, left, pending, goesOn⟩ := ih still open'
    refine ⟨used, left, pending.of_suffix (List.suffix_cons c rest), fun later text₁ pos₁ => ?_⟩
    have entered : blockComment level text pos (c :: (rest ++ later)) =
        blockComment level text' (if c = newline then pos'.newLine else pos') (rest ++ later) := by
      rw [blockComment.eq_def]
      exact (if_neg single).trans (if_neg still)
    rw [List.cons_append, entered]
    exact goesOn later text₁ pos₁

structure Quiet (state : ScanState) : Prop where
  silent : state.endSilently = true
  skips : state.keepComments = false

/-- A reader that has found nothing more than the start of a comment goes on inside of it. -/
structure GoesOn (state : ScanState) (pos : Position) (input : List CodePoint) : Prop where
  silent : (nextFrom state pos input).token = none
  long : 2 ≤ input.length
  continues : ∃ left, Pending input left ∧
    ∀ later start pos', (nextFrom state pos (input ++ later)).content =
      (afterComment (nextFrom state pos input).state start
        (blockComment (nextFrom state pos input).state.commentLevel [] pos' (left ++ later))).content

theorem GoesOn.behind {state' : ScanState} {pos' : Position} {rest : List CodePoint}
    (h : GoesOn state' pos' rest) (suffix : rest <:+ input)
    (passed : nextFrom state pos input = nextFrom state' pos' rest)
    (passed' : ∀ later, nextFrom state pos (input ++ later) = nextFrom state' pos' (rest ++ later)) :
    GoesOn state pos input := by
  obtain ⟨left, pending, continues⟩ := h.continues
  refine ⟨passed ▸ h.silent, h.long.trans suffix.length_le, left, pending.of_suffix suffix,
    fun later start pos'' => ?_⟩
  rw [passed, passed']
  exact continues later start pos''

theorem nextFrom_goesOn (quiet : Quiet state) (outside : state.commentLevel = 0)
    (open' : (nextFrom state pos input).state.commentLevel ≠ 0) : GoesOn state pos input := by
  -- by the length of the input, of which blanks, line ends and comments that have ended take some
  induction size : input.length using Nat.strongRecOn generalizing state pos input with
  | ind size ih =>
    subst size
    cases begins input with
    | nothing =>
      rw [nextFrom] at open'
      exact absurd outside open'
    | @lineEnd rest =>
      rw [nextFrom_lineEnd] at open'
      exact (ih _ (Nat.lt_succ_self _) quiet outside open' rfl).behind (List.suffix_cons _ _)
        (nextFrom_lineEnd _ _ _) fun later => nextFrom_lineEnd _ _ _
    | @blank c rest plain blank =>
      rw [nextFrom_isBlank plain blank] at open'
      exact (ih _ (Nat.lt_succ_self _) quiet outside open' rfl).behind (List.suffix_cons _ _)
        (nextFrom_isBlank plain blank _ _ _) fun later => nextFrom_isBlank plain blank _ _ _
    | @line rest =>
      have shorter := lineComment_rest_length_le (Text.lit "//") pos.advance.advance rest
      have suffix := (lineComment_rest_suffix (Text.lit "//") pos.advance.advance rest).trans
        ((List.suffix_cons slash rest).trans (List.suffix_cons slash _))
      obtain ⟨closed, -⟩ := lineComment_anywhere (Text.lit "//") [] pos.advance.advance pos rest
      have passed := nextFrom_lineComment state outside pos rest
      rw [afterComment_skips quiet.skips] at passed
      rw [passed] at open'
      have goesOn := ih _ (by simp only [List.length_cons]; omega)
        (by exact ⟨quiet.silent, quiet.skips⟩) closed open' rfl
      have filled : (lineComment (Text.lit "//") pos.advance.advance rest).rest ≠ [] := by
        intro none
        have long := goesOn.long
        simp [none] at long
      refine goesOn.behind suffix passed fun later => ?_
      rw [List.cons_append, List.cons_append, nextFrom_lineComment state outside,
        lineComment_append filled, afterComment_skips quiet.skips]
    | @block rest =>
      have shorter := blockComment_rest_length_le 1 (Text.lit "/*") pos.advance.advance rest
      have behind := (List.suffix_cons star rest).trans (List.suffix_cons slash _)
      have passed := nextFrom_blockComment state pos rest
      rw [afterComment_skips quiet.skips] at passed
      by_cases closed : (blockComment 1 (Text.lit "/*") pos.advance.advance rest).level = 0
      · rw [passed] at open'
        have goesOn := ih _ (by simp only [List.length_cons]; omega)
          (by exact ⟨quiet.silent, quiet.skips⟩) closed open' rfl
        refine goesOn.behind ((blockComment_rest_suffix 1 _ _ rest).trans behind) passed fun later => ?_
        rw [List.cons_append, List.cons_append, nextFrom_blockComment,
          blockComment_append Nat.one_ne_zero closed, afterComment_skips quiet.skips]
      · obtain ⟨used, left, pending, goesOn⟩ := blockComment_goesOn Nat.one_ne_zero closed
        rw [used, nextFrom] at passed
        have long : 2 ≤ (slash :: star :: rest).length := by simp
        refine ⟨passed ▸ if_pos quiet.silent, long, left, pending.of_suffix behind,
          fun later start pos' => ?_⟩
        rw [List.cons_append, List.cons_append, nextFrom_blockComment, passed]
        obtain ⟨level, rest'⟩ := goesOn later [] pos'
        exact afterComment_anywhere quiet.skips (blockComment_closed closed) level rest' _ _
    | token opens =>
      obtain ⟨text, token, rest, taken⟩ := taken_of_opens state opens
      obtain ⟨start, after, read, -⟩ := taken.reads pos
      rw [read] at open'
      exact absurd outside open'

theorem Step.remember_commentLevel (step : Step) :
    step.remember.state.commentLevel = step.state.commentLevel := by
  unfold Step.remember
  split <;> rfl

theorem Step.remember_none {step : Step} (h : step.token = none) : step.remember = step := by
  unfold Step.remember
  rw [h]

/-- A reader that has stopped inside a comment goes on with the next text as with the rest of the same
one, but that it may have to be told the last character again. -/
theorem next_goesOn (quiet : Quiet state) (open' : (next state pos input).state.commentLevel ≠ 0) :
    (next state pos input).token = none ∧ (state.commentLevel = 0 → 2 ≤ input.length) ∧
      ∃ left, Pending input left ∧ ∀ later pos', (next state pos (input ++ later)).content =
        (next (next state pos input).state pos' (left ++ later)).content := by
  by_cases outside : state.commentLevel = 0
  · rw [next_outside outside, Step.remember_commentLevel] at open'
    obtain ⟨silent, long, left, pending, goesOn⟩ := nextFrom_goesOn quiet outside open'
    rw [next_outside outside, Step.remember_none silent]
    refine ⟨silent, fun _ => long, left, pending, fun later pos' => ?_⟩
    rw [next_outside outside, next_inside open']
    exact Step.remember_content (goesOn later pos' pos')
  · rw [next_inside outside, Step.remember_commentLevel, afterComment_skips quiet.skips] at open'
    rw [next_inside outside, afterComment_skips quiet.skips]
    have suffix := blockComment_rest_suffix state.commentLevel [] pos input
    by_cases closed : (blockComment state.commentLevel [] pos input).level = 0
    · obtain ⟨silent, -, left, pending, goesOn⟩ :=
        nextFrom_goesOn (by exact ⟨quiet.silent, quiet.skips⟩) closed open'
      rw [Step.remember_none silent]
      refine ⟨silent, fun none => absurd none outside, left, pending.of_suffix suffix,
        fun later pos' => ?_⟩
      rw [next_inside outside, next_inside open', blockComment_append outside closed,
        afterComment_skips quiet.skips]
      exact Step.remember_content (goesOn later pos' pos')
    · obtain ⟨used, left, pending, goesOn⟩ := blockComment_goesOn outside closed
      rw [used, nextFrom] at open' ⊢
      have silent : (endStep { state with
          commentLevel := (blockComment state.commentLevel [] pos input).level }
          (blockComment state.commentLevel [] pos input).pos).token = none := if_pos quiet.silent
      rw [Step.remember_none silent]
      refine ⟨silent, fun none => absurd none outside, left, pending, fun later pos' => ?_⟩
      rw [next_inside outside, next_inside open']
      obtain ⟨level, rest⟩ := goesOn later [] pos'
      exact Step.remember_content
        (afterComment_anywhere quiet.skips (blockComment_closed closed) level rest _ _)

/-! ### Reading to the end -/

/-- All tokens of a text, with the state and the place at its end. No text has more tokens than
characters. -/
def readAll (state : ScanState) (pos : Position) (input : List CodePoint) :
    List PlacedToken × ScanState × Position := run (input.length + 1) state pos input

def outcome (read : List PlacedToken × ScanState × Position) : List Token × ScanState :=
  (read.1.map Prod.fst, read.2.1)

theorem Quiet.next (quiet : Quiet state) (pos : Position) (input : List CodePoint) :
    Quiet (next state pos input).state where
  silent := (endSilently_next state pos input).trans quiet.silent
  skips := (keepComments_next state pos input).trans quiet.skips

theorem Quiet.takes (quiet : Quiet state) (pos : Position) (input : List CodePoint) :
    (Scan.next state pos input).Takes input := by
  refine next_takes (fun stalled => ?_) pos
  have kept := stalled.1
  rw [quiet.skips] at kept
  cases kept

/-- From steps with the same content the same tokens are read, however many may be. -/
theorem outcome_eq {state' : ScanState} {pos' : Position} {input' : List CodePoint} {cap cap' : Nat}
    (quiet : Quiet state) (quiet' : Quiet state') (enough : input.length < cap)
    (enough' : input'.length < cap')
    (same : (next state pos input).content = (next state' pos' input').content) :
    outcome (run cap state pos input) = outcome (run cap' state' pos' input') := by
  induction cap generalizing state pos input state' pos' input' cap' with
  | zero => cases enough
  | succ cap ih =>
    cases cap' with
    | zero => cases enough'
    | succ cap' =>
      have quieter := quiet.next pos input
      obtain ⟨tokens, states, rests⟩ : (next state pos input).token.map Prod.fst =
          (next state' pos' input').token.map Prod.fst ∧
          (next state pos input).state = (next state' pos' input').state ∧
          (next state pos input).rest = (next state' pos' input').rest := by
        simpa only [Step.content, Prod.mk.injEq] using same
      simp only [run]
      cases read : (next state pos input).token with
      | none =>
        rw [read, eq_comm, Option.map_none, Option.map_eq_none_iff] at tokens
        simp only [tokens, states, outcome]
      | some found =>
        rw [read, eq_comm, Option.map_some] at tokens
        obtain ⟨found', read', equal⟩ := Option.map_eq_some_iff.mp tokens
        obtain ⟨token, start⟩ := found
        obtain ⟨token', start'⟩ := found'
        cases equal
        simp only [read']
        cases eof : token.isEof with
        | true => simp [outcome, states]
        | false =>
          have shorter := (quiet.takes pos input).shorter token start read eof
          have shorter' := (quiet'.takes pos' input').shorter token start' read' eof
          have within : (next state pos input).rest.length < cap := by omega
          have within' : (next state pos input).rest.length < cap' := by
            rw [rests]
            omega
          have later := ih quieter quieter within within'
            (next_anywhere quieter.skips (next state pos input).pos (next state' pos' input').pos _)
          simp only [outcome, Prod.mk.injEq] at later
          simp [outcome, ← states, ← rests, later.1, later.2]

def followedBy (first : List Token) (second : List Token × ScanState) : List Token × ScanState :=
  (first ++ second.1, second.2)

theorem run_goesOn (quiet : Quiet state) {cap : Nat} (enough : input.length < cap)
    (open' : (run cap state pos input).2.1.commentLevel ≠ 0) :
    (state.commentLevel = 0 → 2 ≤ input.length) ∧ Quiet (run cap state pos input).2.1 ∧
      ∃ left, Pending input left ∧ ∀ later cap₁ cap₂ pos', (input ++ later).length < cap₁ →
        (left ++ later).length < cap₂ → outcome (run cap₁ state pos (input ++ later)) =
          followedBy ((run cap state pos input).1.map Prod.fst)
            (outcome (run cap₂ (run cap state pos input).2.1 pos' (left ++ later))) := by
  induction cap generalizing state pos input with
  | zero => cases enough
  | succ cap ih =>
    have quieter := quiet.next pos input
    -- A step that gives a token has not stopped inside a comment.
    have given : ∀ found, (next state pos input).token = some found →
        (next state pos input).state.commentLevel = 0 := by
      intro found read
      by_contra inside
      rw [(next_goesOn quiet inside).1] at read
      cases read
    simp only [run] at open' ⊢
    cases read : (next state pos input).token with
    | none =>
      simp only [read] at open' ⊢
      obtain ⟨-, long, left, pending, goesOn⟩ := next_goesOn quiet open'
      refine ⟨long, quieter, left, pending, fun later cap₁ cap₂ pos' enough₁ enough₂ => ?_⟩
      rw [outcome_eq quiet quieter enough₁ enough₂ (goesOn later pos')]
      rfl
    | some found =>
      obtain ⟨token, start⟩ := found
      have outside := given _ read
      simp only [read] at open' ⊢
      cases eof : token.isEof with
      | true =>
        simp only [eof, if_true] at open'
        exact absurd outside open'
      | false =>
        simp only [eof, Bool.false_eq_true, if_false] at open' ⊢
        have shorter := (quiet.takes pos input).shorter token start read eof
        obtain ⟨long, quietest, left, pending, goesOn⟩ := ih quieter (by omega) open'
        have more := long outside
        refine ⟨fun _ => by omega, quietest, left, pending.of_suffix (quiet.takes pos input).rest,
          fun later cap₁ cap₂ pos' enough₁ enough₂ => ?_⟩
        cases cap₁ with
        | zero => cases enough₁
        | succ cap₁ =>
          have within : ((next state pos input).rest ++ later).length < cap₁ := by
            rw [List.length_append] at enough₁ ⊢
            omega
          have rest := goesOn later cap₁ cap₂ pos' within enough₂
          rw [run, next_append more]
          simp only [Step.before, read, eof, Bool.false_eq_true, if_false]
          simp only [outcome, followedBy, Prod.mk.injEq] at rest ⊢
          simp [rest.1, rest.2]

/-! ### Two texts and one -/

def readTwo (state : ScanState) (pos : Position) (first second : List CodePoint) :
    List Token × ScanState :=
  let read := readAll state pos first
  followedBy (read.1.map Prod.fst) (outcome (readAll read.2.1 read.2.2 second))

def levelAfter (state : ScanState) (pos : Position) (input : List CodePoint) : Nat :=
  (readAll state pos input).2.1.commentLevel

/-- The text ends within a delimiter: there is a character that would change the level behind it. -/
def Torn (state : ScanState) (pos : Position) (input : List CodePoint) : Prop :=
  ∃ d, levelAfter state pos (input ++ [d]) ≠ levelAfter state pos input

theorem levelAfter_piece (quiet : Quiet state) (inside : state.commentLevel ≠ 0)
    {piece : List CodePoint} (alone : pairs input = [piece]) :
    levelAfter state pos input = shift state.commentLevel piece := by
  have single : (extent state.commentLevel [piece]).level = shift state.commentLevel piece ∧
      (extent state.commentLevel [piece]).outside = [] := by
    unfold extent
    split
    · next closed => exact ⟨closed.symm, rfl⟩
    · exact ⟨rfl, rfl⟩
  obtain ⟨level, rest⟩ := blockComment_extent state.commentLevel [] pos input
  rw [alone, single.2, List.flatten_nil] at rest
  rw [alone, single.1] at level
  have step : next state pos input = endStep
      { state with commentLevel := (blockComment state.commentLevel [] pos input).level }
      (blockComment state.commentLevel [] pos input).pos := by
    rw [next_inside inside, afterComment_skips quiet.skips, rest, nextFrom]
    exact Step.remember_none (if_pos quiet.silent)
  rw [levelAfter, readAll, run, step]
  simp only [endStep, quiet.silent, if_true]
  exact level

/-- A text that ends within a delimiter is one of which the last character has to be told again. -/
theorem torn_iff (quiet : Quiet state) (open' : levelAfter state pos input ≠ 0) {left : List CodePoint}
    (pending : Pending input left) (goesOn : ∀ later, (outcome (readAll state pos (input ++ later))).2 =
      (outcome (readAll (readAll state pos input).2.1 (readAll state pos input).2.2 (left ++ later))).2) :
    Torn state pos input ↔ left ≠ [] := by
  have quieter : Quiet (readAll state pos input).2.1 :=
    (run_goesOn quiet (Nat.lt_succ_self _) open').2.1
  have behind (d : CodePoint) : levelAfter state pos (input ++ [d]) =
      levelAfter (readAll state pos input).2.1 (readAll state pos input).2.2 (left ++ [d]) :=
    congrArg ScanState.commentLevel (goesOn [d])
  unfold Torn
  simp only [behind]
  cases pending with
  | nothing =>
    simp only [ne_eq, not_true_eq_false, iff_false, not_exists, not_not, List.nil_append]
    intro d
    rw [levelAfter_piece quieter open' rfl, shift_of_plain (plain_single d)]
    rfl
  | @torn c mark last =>
    simp only [ne_eq, List.cons_ne_self, not_false_eq_true, iff_true]
    have pair (d : CodePoint) : levelAfter (readAll state pos input).2.1 (readAll state pos input).2.2
        ([c] ++ [d]) = shift (levelAfter state pos input) [c, d] :=
      levelAfter_piece quieter open' (pairs_pair mark d [])
    rcases mark with rfl | rfl
    · refine ⟨star, ?_⟩
      rw [pair, shift_pair, if_pos ⟨rfl, rfl⟩]
      omega
    · refine ⟨slash, ?_⟩
      rw [pair, shift_pair, if_neg (by decide), if_pos ⟨rfl, rfl⟩]
      omega

/-- A comment that is open at the end of a text is read on in the next text as if both were one, unless
the text ends within a delimiter. Then the reader has forgotten the last character: told it again, it
reads what both texts together mean. -/
theorem open_comment_resumes_unless_torn (quiet : Quiet state) (pos : Position) {u v : Text}
    (open' : levelAfter state pos (Utf8.decode u) ≠ 0) {pieces : List Text}
    (joined : pieces = [u, v] ∨ Utf8.endsInside u = false ∧ pieces = [u ++ v]) :
    (¬ Torn state pos (Utf8.decode u) → outcome (readAll state pos (codePoints pieces)) =
      readTwo state pos (Utf8.decode u) (Utf8.decode v)) ∧
    (Torn state pos (Utf8.decode u) → ∃ c, (c = slash ∨ c = star) ∧ (Utf8.decode u).getLast? = some c ∧
      outcome (readAll state pos (codePoints pieces)) =
        readTwo state pos (Utf8.decode u) (c :: Utf8.decode v)) := by
  have chars : codePoints pieces = Utf8.decode u ++ Utf8.decode v := by
    rcases joined with rfl | ⟨whole, rfl⟩
    · simp [codePoints]
    · simp [codePoints, Utf8.decode_append whole]
  obtain ⟨-, -, left, pending, goesOn⟩ := run_goesOn quiet (Nat.lt_succ_self _) open'
  have again (later : List CodePoint) : outcome (readAll state pos (Utf8.decode u ++ later)) =
      readTwo state pos (Utf8.decode u) (left ++ later) :=
    goesOn later _ _ _ (Nat.lt_succ_self _) (Nat.lt_succ_self _)
  have states (later : List CodePoint) : (outcome (readAll state pos (Utf8.decode u ++ later))).2 =
      (readTwo state pos (Utf8.decode u) (left ++ later)).2 := congrArg Prod.snd (again later)
  have torn := torn_iff quiet open' pending states
  rw [chars, again, torn]
  cases pending with
  | nothing => exact ⟨fun _ => rfl, fun torn => absurd rfl torn⟩
  | torn mark last =>
    exact ⟨fun whole => absurd (List.cons_ne_nil _ _) whole, fun _ => ⟨_, mark, last, rfl⟩⟩

def quietReader : ScanState := { endSilently := true }

theorem quiet_quietReader : Quiet quietReader := ⟨rfl, rfl⟩

def firstHalf : Text := Text.lit "1 /* a/*b */ c"

def secondHalf : Text := Text.lit "*/ 2"

theorem nested_comment_resumes : levelAfter quietReader .start (Utf8.decode firstHalf) ≠ 0 ∧
    Utf8.endsInside firstHalf = false ∧
    outcome (readAll quietReader .start (codePoints [firstHalf ++ secondHalf])) =
      readTwo quietReader .start (Utf8.decode firstHalf) (Utf8.decode secondHalf) := by
  have open' : levelAfter quietReader .start (Utf8.decode firstHalf) ≠ 0 := by decide +kernel
  have whole : Utf8.endsInside firstHalf = false := by decide +kernel
  have both := open_comment_resumes_unless_torn quiet_quietReader .start open' (v := secondHalf)
    (.inr ⟨whole, rfl⟩)
  refine ⟨open', whole, both.1 fun torn => ?_⟩
  obtain ⟨c, mark, last, -⟩ := both.2 torn
  have plain : (Utf8.decode firstHalf).getLast? = some 99 := by decide +kernel
  rw [plain] at last
  cases last
  rcases mark with same | same <;> cases same

/-- The two characters that close the comment are in two texts, and it is not closed. -/
theorem torn_delimiter_is_forgotten : ¬ ∀ u v : Text,
    levelAfter quietReader .start (Utf8.decode u) ≠ 0 →
      (readTwo quietReader .start (Utf8.decode u) (Utf8.decode v)).1 =
        (outcome (readAll quietReader .start (Utf8.decode (u ++ v)))).1 := by
  intro resumes
  have same := resumes (Text.lit "/* *") (Text.lit "/ 1") (by decide +kernel)
  have none : (readTwo quietReader .start (Utf8.decode (Text.lit "/* *"))
      (Utf8.decode (Text.lit "/ 1"))).1.length = 0 := by decide +kernel
  have one : (outcome (readAll quietReader .start
      (Utf8.decode (Text.lit "/* *" ++ Text.lit "/ 1")))).1.length = 1 := by decide +kernel
  rw [same, one] at none
  cases none

end Scripting.Scan
