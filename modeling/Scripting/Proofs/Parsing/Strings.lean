import Scripting.Proofs.Progress
import Scripting.Proofs.RoundTrip.Quoted

/-
String and character literals. Only a closing quote makes a token of them, and it is there that the
limit of the dialect is checked. Their characters are those of the script or what escapes stand for, so
all of them are read back from their bytes. Every other token is of another form.
-/
namespace Scripting

def Fits (limit size : Nat) : Prop := limit = 0 ∨ size ≤ limit

namespace Utf8

theorem gather_small {k acc bound : Nat} {t : Text} (room : (acc + 1) * 64 ^ k ≤ bound)
    (le : bound ≤ 0x200000) (large : 0x10000 ≤ bound) : (gather k acc t).1.toNat < bound := by
  have other : replacement.toNat < 0x10000 := by decide
  induction k generalizing acc t with
  | zero =>
    have lt : acc < 4294967296 := by omega
    simp only [gather, UInt32.toNat_ofNat']
    omega
  | succ k ih =>
    cases t with
    | nil => exact Nat.lt_of_lt_of_le other large
    | cons b rest =>
      unfold gather
      split
      · refine ih (Nat.le_trans ?_ room)
        rw [Nat.pow_succ, Nat.mul_comm (64 ^ k) 64, ← Nat.mul_assoc]
        exact Nat.mul_le_mul_right _ (by omega)
      · exact Nat.lt_of_lt_of_le other large

theorem decodeFrom_small (b : UInt8) (rest : Text) : (decodeFrom b rest).1.toNat < 0x200000 := by
  have byte := b.toNat_lt
  unfold decodeFrom
  split
  · simp only [UInt8.toNat_toUInt32]
    omega
  · split
    · exact gather_small (by omega) (Nat.le_refl _) (by decide)
    · split
      · exact gather_small (by omega) (Nat.le_refl _) (by decide)
      · split
        · exact gather_small (by omega) (Nat.le_refl _) (by decide)
        · show replacement.toNat < 0x200000
          decide

theorem decode_small (t : Text) : ∀ c ∈ decode t, c.toNat < 0x200000 := by
  induction h : t.length using Nat.strongRecOn generalizing t with
  | ind n ih =>
    cases t with
    | nil => simp [decode, decodeSteps]
    | cons b rest =>
      rw [decode_cons]
      refine List.forall_mem_cons.mpr ⟨decodeFrom_small b rest, ?_⟩
      have shorter := decodeFrom_rest_length_le b rest
      rw [List.length_cons] at h
      exact ih _ (by omega) _ rfl

end Utf8

namespace Literal

theorem finish_fits {limit : Nat} {chars found : List CodePoint}
    (h : finish limit chars = .ok found) : Fits limit (Utf8.encodeAll found).length := by
  unfold finish at h
  split at h
  · cases h
  · next within =>
    cases h
    unfold Fits
    omega

theorem readFrom_fits {limit : Nat} {quote : CodePoint} {phase : Phase}
    {chars input found : List CodePoint} {pos : Position}
    (h : (readFrom (.chars limit) limit quote phase chars pos input).result = .ok found) :
    Fits limit (Utf8.encodeAll found).length := by
  fun_induction readFrom (.chars limit) limit quote phase chars pos input
  all_goals first
    | cases h
    | (rename_i ih; exact ih h)
    | exact finish_fits h

theorem finish_same {limit : Nat} {chars found : List CodePoint} (h : finish limit chars = .ok found) :
    found = chars := by
  unfold finish at h
  split at h
  · cases h
  · cases h
    rfl

def Small (c : CodePoint) : Prop := c.toNat < 0x200000

theorem escapeChar?_small {quote c e : CodePoint} (small : Small quote)
    (h : escapeChar? quote c = some e) : Small e := by
  unfold escapeChar? at h
  repeat' split at h
  all_goals cases h
  all_goals first
    | exact small
    | (unfold Small; decide)

theorem isScalar_small {n : Nat} (h : isScalar n = true) : Small (UInt32.ofNat n) := by
  unfold Small
  simp only [isScalar, Bool.and_eq_true, decide_eq_true_eq] at h
  rw [UInt32.toNat_ofNat']
  omega

theorem readFrom_small {limit : Nat} {quote : CodePoint} (small : Small quote) {phase : Phase}
    {chars input found : List CodePoint} {pos : Position} (before : ∀ c ∈ chars, Small c)
    (later : ∀ c ∈ input, Small c)
    (h : (readFrom (.chars limit) limit quote phase chars pos input).result = .ok found) :
    ∀ c ∈ found, Small c := by
  fun_induction readFrom (.chars limit) limit quote phase chars pos input with
  | case4 left value seen chars pos c rest pos' seen' d digit value' more ih =>
    exact ih before (List.forall_mem_cons.mp later).2 h
  | case5 left value seen chars pos c rest pos' d digit value' more scalar ih =>
    exact ih (List.forall_mem_cons.mpr ⟨isScalar_small scalar, before⟩) (List.forall_mem_cons.mp later).2 h
  | case8 chars pos c rest pos' short n digits ih =>
    exact ih before (List.forall_mem_cons.mp later).2 h
  | case9 chars pos c rest pos' short noDigits e escape ih =>
    have first := escapeChar?_small small escape
    exact ih (List.forall_mem_cons.mpr ⟨first, before⟩) (List.forall_mem_cons.mp later).2 h
  | case12 chars pos rest pos' short ih => exact ih before (List.forall_mem_cons.mp later).2 h
  | case13 chars pos rest pos' short noEscape =>
    rw [finish_same h]
    exact fun c mem => before c (List.mem_reverse.mp mem)
  | case15 chars pos c rest pos' short noEscape noQuote noNewline ih =>
    obtain ⟨first, others⟩ := List.forall_mem_cons.mp later
    exact ih (List.forall_mem_cons.mpr ⟨first, before⟩) others h
  | _ => cases h

end Literal

namespace Token

def Short (limit : Nat) : Token → Prop
  | .string t => Fits limit t.length
  | _ => True

def Small : Token → Prop
  | .char c => Literal.Small c
  | _ => True

def isText : Token → Bool
  | .string _ | .char _ => true
  | _ => false

inductive From (limit : Nat) (input : List CodePoint) : Token → Prop where
  | string {start : Position} {rest chars : List CodePoint} (behind : rest <:+ input)
      (read : (Literal.read limit Scan.doubleQuote start rest).result = .ok chars) :
      From limit input (.string (Utf8.encodeAll chars))
  | char {start : Position} {rest : List CodePoint} {c : CodePoint} (behind : rest <:+ input)
      (read : (Literal.read limit Scan.singleQuote start rest).result = .ok [c]) :
      From limit input (.char c)
  | other {token : Token} (h : token.isText = false) : From limit input token

variable {limit : Nat} {input rest : List CodePoint} {token : Token}

theorem From.of_suffix (h : token.From limit rest) (behind : rest <:+ input) :
    token.From limit input := by
  cases h with
  | string later read => exact .string (later.trans behind) read
  | char later read => exact .char (later.trans behind) read
  | other h => exact .other h

theorem From.short (h : token.From limit input) : token.Short limit := by
  cases h with
  | string _ read => exact Literal.readFrom_fits read
  | char => trivial
  | other h => cases token <;> trivial

theorem From.small (h : token.From limit input) (small : ∀ c ∈ input, Literal.Small c) :
    token.Small := by
  cases h with
  | string => trivial
  | char behind read =>
    have quote : Literal.Small Scan.singleQuote := by
      unfold Literal.Small
      decide
    exact Literal.readFrom_small quote (by simp) (fun c mem => small c (behind.subset mem)) read _
      List.mem_cons_self
  | other h => cases token <;> trivial

theorem isText_ofText? {t : Text} (h : Token.ofText? t = some token) : token.isText = false := by
  unfold Token.ofText? at h
  split at h
  · cases h
    rfl
  · split at h
    · cases h
      rfl
    · cases h

end Token

namespace Scan

open Token

/-- A step that gives a token of its input, leaves an end of it, and keeps the limit for the next one. -/
structure Step.Gives (limit : Nat) (input : List CodePoint) (step : Step) : Prop where
  token : ∀ token start, step.token = some (token, start) → token.From limit input
  state : step.state.maxString = limit
  rest : step.rest <:+ input

section

variable {limit : Nat} {input : List CodePoint} {state : ScanState}

theorem Step.Gives.of_suffix {step : Step} {rest : List CodePoint} (h : step.Gives limit rest)
    (behind : rest <:+ input) : step.Gives limit input :=
  ⟨fun token start eq => (h.token token start eq).of_suffix behind, h.state, h.rest.trans behind⟩

theorem Step.Gives.remember {step : Step} (h : step.Gives limit input) :
    step.remember.Gives limit input := by
  unfold Step.remember
  split
  · exact ⟨h.token, h.state, h.rest⟩
  · exact h

theorem isText_numberToken (negative : Bool) (number : NumberText) :
    (numberToken negative number).isText = false := by
  unfold numberToken
  dsimp only
  repeat' split
  all_goals rfl

theorem isText_wordToken (word : Text) : (wordToken word).isText = false := by
  unfold wordToken
  split
  · rfl
  · cases found : Token.ofText? word with
    | none => rfl
    | some token => exact isText_ofText? found

theorem isText_signToken (afterOperand : Bool) (sign : String) :
    (signToken afterOperand sign).isText = false := by
  unfold signToken
  split
  · rfl
  · rfl
  · next found => exact isText_ofText? found
  · rfl

variable (hstate : state.maxString = limit)
include hstate

theorem gives_step {token : Token} {rest : List CodePoint} (h : token.From limit input)
    (behind : rest <:+ input) (start pos : Position) :
    Step.Gives limit input ⟨some (token, start), state, pos, rest⟩ := by
  refine ⟨?_, hstate, behind⟩
  intro other place eq
  cases eq
  exact h

theorem stringStep_gives (start : Position) (input : List CodePoint) :
    (stringStep state start input).Gives limit input := by
  have behind := Literal.readFrom_rest_suffix (.chars state.maxString) state.maxString doubleQuote .plain [] start input
  unfold stringStep
  dsimp only
  cases result : (Literal.read state.maxString doubleQuote start input).result with
  | ok chars => exact gives_step hstate (.string (List.suffix_refl _) (hstate ▸ result)) behind _ _
  | error e => exact gives_step hstate (.other rfl) behind _ _

theorem charStep_gives (start : Position) (input : List CodePoint) :
    (charStep state start input).Gives limit input := by
  have behind := Literal.readFrom_rest_suffix (.chars state.maxString) state.maxString singleQuote .plain [] start input
  unfold charStep
  split
  · exact gives_step hstate (.other rfl) (List.suffix_refl _) _ _
  · dsimp only
    split
    · next c result => exact gives_step hstate (.char (List.suffix_refl _) (hstate ▸ result)) behind _ _
    · exact gives_step hstate (.other rfl) behind _ _
    · exact gives_step hstate (.other rfl) behind _ _

theorem signStep_gives (start : Position) (first : CodePoint) (input : List CodePoint) :
    (signStep state start first input).Gives limit input := by
  unfold signStep
  split
  · exact gives_step hstate (.other (isText_signToken _ _)) (List.drop_suffix _ _) _ _
  · exact gives_step hstate (.other rfl) (List.suffix_refl _) _ _

theorem endStep_gives (pos : Position) : (endStep state pos).Gives limit [] := by
  refine ⟨?_, hstate, List.suffix_refl _⟩
  intro token start eq
  unfold endStep at eq
  dsimp only at eq
  split at eq
  · cases eq
  · cases eq
    exact .other rfl

theorem numberStep_gives (start : Position) (negative : Bool) (first : CodePoint)
    (input : List CodePoint) : (numberStep state start negative first input).Gives limit input :=
  gives_step hstate (.other (isText_numberToken _ _)) (numberText_rest_suffix _ _) _ _

theorem nextFrom_gives (pos : Position) (input : List CodePoint) :
    (nextFrom state pos input).Gives limit input := by
  have after (c : CodePoint) (rest : List CodePoint) : rest <:+ c :: rest := List.suffix_cons _ _
  have tail (c : CodePoint) (rest : List CodePoint) : rest.tail <:+ c :: rest :=
    (List.tail_suffix rest).trans (after _ _)
  fun_induction nextFrom state pos input with
  | case1 state pos => exact endStep_gives hstate _
  | case2 state pos rest start ih => exact (ih hstate).of_suffix (after _ _)
  | case3 => exact (numberStep_gives hstate _ _ _ _).of_suffix (after _ _)
  | case4 =>
    exact gives_step hstate (.other (isText_wordToken _)) ((List.dropWhile_suffix _).trans (after _ _)) _ _
  | case5 => exact (stringStep_gives hstate _ _).of_suffix (after _ _)
  | case6 => exact (charStep_gives hstate _ _).of_suffix (after _ _)
  | case7 state pos c rest start newline digit word double single blank ih =>
    exact (ih hstate).of_suffix (after _ _)
  | case8 state pos c rest start newline digit word double single blank negative =>
    exact (numberStep_gives hstate _ _ _ _).of_suffix (tail _ _)
  | case9 state pos c rest =>
    exact gives_step hstate (.other rfl) ((lineComment_rest_suffix _ _ _).trans (tail c rest)) _ _
  | case10 state pos c rest start newline digit word double single blank negative line comment skip ih =>
    exact (ih hstate).of_suffix ((lineComment_rest_suffix _ _ _).trans (tail c rest))
  | case11 state pos c rest =>
    exact gives_step (by exact hstate) (.other rfl)
      ((blockComment_rest_suffix _ _ _ _).trans (tail c rest)) _ _
  | case12 state pos c rest start newline digit word double single blank negative line block comment
      state' skip ih =>
    exact (ih hstate).of_suffix ((blockComment_rest_suffix _ _ _ _).trans (tail c rest))
  | case13 => exact (signStep_gives hstate _ _ _).of_suffix (after _ _)

theorem next_gives (pos : Position) (input : List CodePoint) :
    (next state pos input).Gives limit input := by
  refine Step.Gives.remember ?_
  split
  · exact nextFrom_gives hstate pos input
  · have behind := blockComment_rest_suffix state.commentLevel [] pos input
    dsimp only
    split
    · exact gives_step (by exact hstate) (.other rfl) behind _ _
    · exact (nextFrom_gives (by exact hstate) _ _).of_suffix behind

end

end Scan

namespace Dialect

variable (d : Dialect)

theorem filter_from {limit : Nat} {input : List CodePoint} {token : Token}
    (h : token.From limit input) : (d.filter token).From limit input := by
  cases token with
  | reserved t =>
    change (d.filterReserved t).From limit input
    unfold filterReserved improperToken
    repeat' split
    all_goals exact .other rfl
  | identifier t =>
    change Token.From limit input (if d.isCustom t then Token.custom t else .identifier t)
    split <;> exact .other rfl
  | symbol s =>
    change (d.filterSymbol s).From limit input
    unfold filterSymbol
    repeat' split
    all_goals exact .other rfl
  | _ => exact h

theorem take_from (cap : Nat) {limit : Nat} {state : ScanState} (hstate : state.maxString = limit)
    (pos : Position) (input : List CodePoint) :
    ∀ p ∈ d.take cap state pos input, p.1.From limit input := by
  induction cap generalizing state pos input with
  | zero => exact fun _ never => by cases never
  | succ cap ih =>
    obtain ⟨given, kept, behind⟩ := Scan.next_gives hstate pos input
    unfold take next
    dsimp only
    cases read : (Scan.next state pos input).token with
    | none => exact fun _ never => by cases never
    | some found =>
      obtain ⟨token, start⟩ := found
      have first : (d.filter token).From limit input := d.filter_from (given token start read)
      dsimp only [Option.map_some]
      split
      · exact List.forall_mem_cons.mpr ⟨first, fun _ never => by cases never⟩
      · exact List.forall_mem_cons.mpr ⟨first, fun p hp => (ih kept _ _ p hp).of_suffix behind⟩

theorem tokens_short (pieces : List Text) : ∀ p ∈ d.tokens pieces, p.1.Short d.maxString :=
  fun p hp => (d.take_from _ rfl _ _ p hp).short

theorem tokens_small (pieces : List Text) : ∀ p ∈ d.tokens pieces, p.1.Small := by
  refine fun p hp => (d.take_from _ rfl _ _ p hp).small ?_
  intro c mem
  obtain ⟨piece, -, there⟩ := List.mem_flatMap.mp mem
  exact Utf8.decode_small piece c there

end Dialect

end Scripting
