import Mathlib.Data.List.Infix
import Scripting.Token.Dialect

/-
Reading tokens makes progress. Every call that gives a token takes a character, and reading a script
ends, with one exception: a reader that keeps comments and finds the input used up inside a block
comment gives one empty comment after the other.
-/
namespace Scripting

namespace Literal

theorem readFrom_rest_suffix {σ α : Type} (sink : Sink σ α) (limit : Nat) (quote : CodePoint)
    (phase : Phase) (found : σ) (pos : Position) (input : List CodePoint) :
    (readFrom sink limit quote phase found pos input).rest <:+ input := by
  fun_induction readFrom sink limit quote phase found pos input
  all_goals first
    | exact List.suffix_refl _
    | exact List.suffix_cons _ _
    | (rename_i ih; exact ih.trans (List.suffix_cons _ _))

end Literal

namespace Scan

theorem lineComment_rest_suffix (text : Text) (pos : Position) (input : List CodePoint) :
    (lineComment text pos input).rest <:+ input := by
  fun_induction lineComment text pos input with
  | case1 => exact List.suffix_refl _
  | case2 text pos rest => exact List.suffix_cons _ _
  | case3 text pos c rest other ih => exact ih.trans (List.suffix_cons _ _)

theorem blockComment_rest_suffix (level : Nat) (text : Text) (pos : Position)
    (input : List CodePoint) : (blockComment level text pos input).rest <:+ input := by
  fun_induction blockComment level text pos input
  all_goals first
    | exact List.suffix_refl _
    | exact List.nil_suffix
    | exact List.suffix_cons _ _
    | exact (List.suffix_cons _ _).trans (List.suffix_cons _ _)
    | (rename_i ih; exact ih.trans ((List.suffix_cons _ _).trans (List.suffix_cons _ _)))
    | (rename_i ih; exact ih.trans (List.suffix_cons _ _))

theorem blockComment_cons_rest_suffix (level : Nat) (text : Text) (pos : Position) (c : CodePoint)
    (rest : List CodePoint) : (blockComment level text pos (c :: rest)).rest <:+ rest := by
  unfold blockComment
  dsimp only
  split
  · cases rest with
    | nil => exact List.suffix_refl _
    | cons d later =>
      dsimp only
      generalize (if c = slash ∧ d = star then level + 1
        else if c = star ∧ d = slash then level - 1 else level) = deeper
      split
      · exact List.suffix_cons _ _
      · exact (blockComment_rest_suffix _ _ _ _).trans (List.suffix_cons _ _)
  · split
    · exact List.suffix_refl _
    · exact blockComment_rest_suffix _ _ _ _

theorem numberText_rest_suffix (first : CodePoint) (input : List CodePoint) :
    (numberText first input).rest <:+ input := by
  unfold numberText
  dsimp only
  split
  · exact List.dropWhile_suffix _
  · next letter tail left =>
    split
    · exact List.dropWhile_suffix _
    · have behind : letter :: tail <:+ input := by rw [← left]; exact List.dropWhile_suffix _
      exact ((List.dropWhile_suffix _).trans (List.suffix_cons _ _)).trans behind

theorem charStep_rest_suffix (state : ScanState) (start : Position) (input : List CodePoint) :
    (charStep state start input).rest <:+ input := by
  unfold charStep
  split
  · exact List.suffix_refl _
  · exact Literal.readFrom_rest_suffix _ _ _ _ _ _ _

theorem signStep_rest_suffix (state : ScanState) (start : Position) (first : CodePoint)
    (input : List CodePoint) : (signStep state start first input).rest <:+ input := by
  unfold signStep
  split
  · exact List.drop_suffix _ _
  · exact List.suffix_refl _

structure Step.Takes (input : List CodePoint) (step : Step) : Prop where
  rest : step.rest <:+ input
  shorter : ∀ token start, step.token = some (token, start) → token.isEof = false →
    step.rest.length < input.length

theorem takes_of_suffix {c : CodePoint} {rest : List CodePoint} {step : Step}
    (h : step.rest <:+ rest) : step.Takes (c :: rest) where
  rest := h.trans (List.suffix_cons _ _)
  shorter _ _ _ _ := Nat.lt_succ_of_le h.length_le

theorem Step.Takes.of_suffix {input rest : List CodePoint} {step : Step} (h : step.Takes rest)
    (behind : rest <:+ input) : step.Takes input where
  rest := h.rest.trans behind
  shorter token start read more := Nat.lt_of_lt_of_le (h.shorter token start read more)
    behind.length_le

theorem Step.Takes.remember {input : List CodePoint} {step : Step} (h : step.Takes input) :
    step.remember.Takes input := by
  unfold Step.remember
  split
  · exact ⟨h.rest, h.shorter⟩
  · exact h

theorem endStep_takes (state : ScanState) (pos : Position) : (endStep state pos).Takes [] := by
  refine ⟨List.suffix_refl _, ?_⟩
  intro token start read more
  unfold endStep at read
  dsimp only at read
  split at read
  · cases read
  · cases read
    cases more

theorem nextFrom_takes (state : ScanState) (pos : Position) (input : List CodePoint) :
    (nextFrom state pos input).Takes input := by
  have tail (c : CodePoint) (rest : List CodePoint) : rest.tail <:+ c :: rest :=
    (List.tail_suffix rest).trans (List.suffix_cons _ _)
  fun_induction nextFrom state pos input with
  | case1 state pos => exact endStep_takes _ _
  | case2 state pos rest start ih => exact ih.of_suffix (List.suffix_cons _ _)
  | case3 => exact takes_of_suffix (numberText_rest_suffix _ _)
  | case4 => exact takes_of_suffix (List.dropWhile_suffix _)
  | case5 => exact takes_of_suffix (Literal.readFrom_rest_suffix _ _ _ _ _ _ _)
  | case6 => exact takes_of_suffix (charStep_rest_suffix _ _ _)
  | case7 state pos c rest start newline digit word double single blank ih =>
    exact ih.of_suffix (List.suffix_cons _ _)
  | case8 =>
    exact takes_of_suffix ((numberText_rest_suffix _ _).trans (List.tail_suffix _))
  | case9 =>
    exact takes_of_suffix ((lineComment_rest_suffix _ _ _).trans (List.tail_suffix _))
  | case10 state pos c rest start newline digit word double single blank negative line comment skip
      ih =>
    exact ih.of_suffix ((lineComment_rest_suffix _ _ _).trans (tail c rest))
  | case11 =>
    exact takes_of_suffix ((blockComment_rest_suffix _ _ _ _).trans (List.tail_suffix _))
  | case12 state pos c rest start newline digit word double single blank negative line block comment
      state' skip ih =>
    exact ih.of_suffix ((blockComment_rest_suffix _ _ _ _).trans (tail c rest))
  | case13 => exact takes_of_suffix (signStep_rest_suffix _ _ _ _)

def Stalled (state : ScanState) (input : List CodePoint) : Prop :=
  state.keepComments = true ∧ 0 < state.commentLevel ∧ input = []

theorem next_takes {state : ScanState} {input : List CodePoint} (going : ¬ Stalled state input)
    (pos : Position) : (next state pos input).Takes input := by
  refine Step.Takes.remember ?_
  by_cases outside : state.commentLevel = 0
  · rw [if_pos outside]
    exact nextFrom_takes state pos input
  · rw [if_neg outside]
    have comment := blockComment_rest_suffix state.commentLevel [] pos input
    dsimp only
    split
    · next kept =>
      cases input with
      | nil => exact absurd ⟨kept, Nat.pos_of_ne_zero outside, rfl⟩ going
      | cons c rest => exact takes_of_suffix (blockComment_cons_rest_suffix _ _ _ _ _)
    · exact (nextFrom_takes _ _ _).of_suffix comment

/-- A stalled reader gives an empty comment and is as stalled as before. -/
theorem next_of_stalled {state : ScanState} {input : List CodePoint} (h : Stalled state input)
    (pos : Position) :
    next state pos input =
      ⟨some (.comment [], pos), { state with afterOperand := true }, pos, []⟩ := by
  obtain ⟨kept, inside, rfl⟩ := h
  have level : ¬ state.commentLevel = 0 := by omega
  simp [next, level, blockComment, kept, Step.remember, Token.expectsOperand]

/-- How long a string may be, whether the reader stops silently and whether it keeps comments. -/
def settings (state : ScanState) : Nat × Bool × Bool :=
  (state.maxString, state.endSilently, state.keepComments)

theorem settings_nextFrom (state : ScanState) (pos : Position) (input : List CodePoint) :
    settings (nextFrom state pos input).state = settings state := by
  fun_induction nextFrom state pos input
  all_goals first
    | rfl
    | (rename_i ih; exact ih)
    | (unfold charStep; split <;> rfl)
    | (unfold signStep; split <;> rfl)

theorem settings_next (state : ScanState) (pos : Position) (input : List CodePoint) :
    settings (next state pos input).state = settings state := by
  have remembered (step : Step) : settings step.remember.state = settings step.state := by
    unfold Step.remember
    split <;> rfl
  unfold next
  rw [remembered]
  split
  · exact settings_nextFrom _ _ _
  · dsimp only
    split
    · rfl
    · exact settings_nextFrom _ _ _

theorem keepComments_next (state : ScanState) (pos : Position) (input : List CodePoint) :
    (next state pos input).state.keepComments = state.keepComments :=
  congrArg (fun s => s.2.2) (settings_next state pos input)

theorem endSilently_next (state : ScanState) (pos : Position) (input : List CodePoint) :
    (next state pos input).state.endSilently = state.endSilently :=
  congrArg (fun s => s.2.1) (settings_next state pos input)

end Scan

namespace Dialect

open Scan

variable (d : Dialect)

inductive Finishes : Nat → ScanState → Position → List CodePoint → List PlacedToken → Prop where
  | silent {state : ScanState} {pos : Position} {input : List CodePoint}
      (read : (d.next state pos input).token = none) : Finishes 1 state pos input []
  | last {state : ScanState} {pos : Position} {input : List CodePoint} {token : Token}
      {start : Position} (read : (d.next state pos input).token = some (token, start))
      (eof : token.isEof = true) : Finishes 1 state pos input [(token, start)]
  | more {state : ScanState} {pos : Position} {input : List CodePoint} {token : Token}
      {start : Position} {n : Nat} {tokens : List PlacedToken}
      (read : (d.next state pos input).token = some (token, start)) (more : token.isEof = false)
      (later : Finishes n (d.next state pos input).state (d.next state pos input).pos
        (d.next state pos input).rest tokens) :
      Finishes (n + 1) state pos input ((token, start) :: tokens)

inductive Stalls : ScanState → Position → List CodePoint → Prop where
  | here {state : ScanState} {pos : Position} {input : List CodePoint} (h : Stalled state input) :
      Stalls state pos input
  | later {state : ScanState} {pos : Position} {input : List CodePoint} {token : Token}
      {start : Position} (read : (d.next state pos input).token = some (token, start))
      (more : token.isEof = false)
      (h : Stalls (d.next state pos input).state (d.next state pos input).pos
        (d.next state pos input).rest) : Stalls state pos input

theorem isEof_filter (token : Token) : (d.filter token).isEof = token.isEof := by
  cases token with
  | reserved t =>
    change (d.filterReserved t).isEof = false
    unfold filterReserved improperToken
    repeat' split
    all_goals rfl
  | identifier t =>
    change (if d.isCustom t then Token.custom t else .identifier t).isEof = false
    split <;> rfl
  | symbol s =>
    change (d.filterSymbol s).isEof = false
    unfold filterSymbol
    repeat' split
    all_goals rfl
  | _ => rfl

theorem next_shorter {state : ScanState} {pos : Position} {input : List CodePoint} {token : Token}
    {start : Position} (going : ¬ Stalled state input)
    (read : (d.next state pos input).token = some (token, start)) (more : token.isEof = false) :
    (d.next state pos input).rest.length < input.length := by
  obtain ⟨⟨plain, place⟩, found, seen⟩ := Option.map_eq_some_iff.mp read
  obtain ⟨rfl, -⟩ := Prod.mk.inj seen
  rw [isEof_filter] at more
  exact (next_takes going pos).shorter plain place found more

theorem finishes_or_stalls (state : ScanState) (pos : Position) (input : List CodePoint) :
    (∃ n ≤ input.length + 1, ∃ tokens, d.Finishes n state pos input tokens) ∨
      d.Stalls state pos input := by
  -- by the length of what is left, which every token makes shorter
  induction size : input.length using Nat.strong_induction_on generalizing state pos input with
  | _ size ih =>
    subst size
    by_cases stalled : Stalled state input
    · exact .inr (.here stalled)
    · cases read : (d.next state pos input).token with
      | none => exact .inl ⟨1, by omega, [], .silent read⟩
      | some found =>
        obtain ⟨token, start⟩ := found
        cases more : token.isEof with
        | true => exact .inl ⟨1, by omega, [(token, start)], .last read more⟩
        | false =>
          have shorter := d.next_shorter stalled read more
          rcases ih _ shorter (d.next state pos input).state (d.next state pos input).pos _ rfl with
            ⟨n, within, tokens, later⟩ | later
          · exact .inl ⟨n + 1, by omega, (token, start) :: tokens, .more read more later⟩
          · exact .inr (.later read more later)

theorem not_finishes_of_stalled {state : ScanState} {pos : Position} {input : List CodePoint}
    (h : Stalled state input) (n : Nat) (tokens : List PlacedToken) :
    ¬ d.Finishes n state pos input tokens := by
  have empty (state : ScanState) (input : List CodePoint) (pos : Position)
      (h : Stalled state input) : d.next state pos input =
        ⟨some (.comment [], pos), { state with afterOperand := true }, pos, []⟩ := by
    simp [Dialect.next, next_of_stalled h, filter]
  intro finishes
  induction finishes with
  | silent read => rw [empty _ _ _ h] at read; cases read
  | last read eof => rw [empty _ _ _ h] at read; cases read; cases eof
  | more read more later ih =>
    rw [empty _ _ _ h] at ih
    exact ih ⟨h.1, h.2.1, rfl⟩

theorem not_finishes_of_stalls {state : ScanState} {pos : Position} {input : List CodePoint}
    (h : d.Stalls state pos input) (n : Nat) (tokens : List PlacedToken) :
    ¬ d.Finishes n state pos input tokens := by
  induction h generalizing n tokens with
  | here h => exact d.not_finishes_of_stalled h n tokens
  | later read more h ih =>
    intro finishes
    cases finishes with
    | silent none => rw [read] at none; cases none
    | last other eof => rw [read] at other; cases other; rw [more] at eof; cases eof
    | more other _ later => exact ih _ _ later

theorem not_stalls_of_skip {state : ScanState} (skip : state.keepComments = false) (pos : Position)
    (input : List CodePoint) : ¬ d.Stalls state pos input := by
  intro stalls
  induction stalls with
  | here h =>
    have kept := h.1
    rw [skip] at kept
    cases kept
  | later read more h ih => exact ih ((keepComments_next _ _ _).trans skip)

theorem take_of_finishes {n : Nat} {state : ScanState} {pos : Position} {input : List CodePoint}
    {tokens : List PlacedToken} (h : d.Finishes n state pos input tokens) {cap : Nat}
    (enough : n ≤ cap) : d.take cap state pos input = tokens := by
  induction h generalizing cap with
  | silent read =>
    cases cap with
    | zero => omega
    | succ cap => simp [take, read]
  | last read eof =>
    cases cap with
    | zero => omega
    | succ cap => simp [take, read, eof]
  | more read more later ih =>
    cases cap with
    | zero => omega
    | succ cap => simp [take, read, more, ih (Nat.le_of_succ_le_succ enough)]

/-- A call takes a character for every token but the end, and reading ends after at most one call
more than there are characters, exactly if it never stalls. A reader that skips comments never does,
so the tokens of a script are always complete. -/
theorem reading_ends_unless_stalled (d : Dialect) (state : ScanState) (pos : Position)
    (input : List CodePoint) (pieces : List Text) :
    (∀ token start, (Scan.next state pos input).token = some (token, start) →
      token.isEof = false → ¬ Stalled state input →
      (Scan.next state pos input).rest <:+ input ∧
        (Scan.next state pos input).rest.length < input.length) ∧
    ((∃ n ≤ input.length + 1, ∃ tokens, d.Finishes n state pos input tokens) ↔
      ¬ d.Stalls state pos input) ∧
    (state.keepComments = false → ¬ d.Stalls state pos input) ∧
    (∃ n ≤ (codePoints pieces).length + 1,
      d.Finishes n d.initial Position.start (codePoints pieces) (d.tokens pieces)) := by
  refine ⟨?_, ?_, ?_, ?_⟩
  · intro token start read more going
    have takes := next_takes going pos
    exact ⟨takes.rest, takes.shorter token start read more⟩
  · constructor
    · rintro ⟨n, -, tokens, finishes⟩ stalls
      exact d.not_finishes_of_stalls stalls n tokens finishes
    · exact (d.finishes_or_stalls state pos input).resolve_right
  · intro skip
    exact d.not_stalls_of_skip skip pos input
  · have skip : ¬ d.Stalls d.initial Position.start (codePoints pieces) :=
      d.not_stalls_of_skip rfl _ _
    obtain ⟨n, within, tokens, finishes⟩ :=
      (d.finishes_or_stalls d.initial Position.start (codePoints pieces)).resolve_right skip
    have all : d.tokens pieces = tokens := d.take_of_finishes finishes within
    exact ⟨n, within, all ▸ finishes⟩

/-- A stalled call gives a comment and takes nothing, and so a script that ends inside a comment never
ends for a reader that keeps comments. -/
theorem open_comment_never_ends :
    (∃ comment, (Scan.next { keepComments := true, commentLevel := 1 } Position.start []).token =
      some (.comment comment, Position.start)) ∧
    ∀ n tokens, ¬ ({} : Dialect).Finishes n { keepComments := true } Position.start
      (codePoints [Text.lit "/*"]) tokens := by
  constructor
  · exact ⟨[], by rw [next_of_stalled ⟨rfl, Nat.one_pos, rfl⟩]⟩
  · let step := ({} : Dialect).next { keepComments := true } Position.start
      (codePoints [Text.lit "/*"])
    have read : step.token.map (·.1.isEof) = some false := by decide +kernel
    have stalled : Stalled step.state step.rest := by unfold Stalled; decide +kernel
    obtain ⟨⟨token, start⟩, found, more⟩ := Option.map_eq_some_iff.mp read
    exact not_finishes_of_stalls _ (.later found more (.here stalled))

end Dialect

end Scripting
