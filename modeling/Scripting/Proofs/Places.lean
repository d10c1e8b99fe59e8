import Scripting.Proofs.Lexemes

/-
The places of tokens. A reader comes to a token over blanks, line ends, comments and the tokens before
it, and what it has counted is behind what it has read by the line ends that it has lost on the way: in
a comment the ones that a slash or a star takes along, and in a faulty literal the one that it stops at.
A token is reported at its first character if and only if none is lost.
-/
namespace Scripting.Scan

open Literal (newline)

/-! ### Places in a text -/

def column (before : List CodePoint) : Nat := (before.reverse.takeWhile (· != newline)).length

def placeAfter (before : List CodePoint) : Position :=
  ⟨1 + before.count newline, 1 + column before⟩

/-- A source with no more lines, and no longer ones, than places can tell apart. What follows a line end
at the end of the source is no line. -/
structure Ruled (source : List CodePoint) : Prop where
  lines : source.dropLast.count newline < Position.bound
  columns : ∀ line, line <:+: source → newline ∉ line → line.length < Position.bound

theorem ruled_of_short {source : List CodePoint} (h : source.length < Position.bound) :
    Ruled source where
  lines := by
    have few := List.count_le_length (a := newline) (l := source.dropLast)
    rw [List.length_dropLast] at few
    omega
  columns line within _ := Nat.lt_of_le_of_lt within.length_le h

theorem column_text (before : List CodePoint) {text : List CodePoint} (clean : newline ∉ text) :
    column (before ++ text) = column before + text.length := by
  have passed : ∀ c ∈ text.reverse, (c != newline) = true := by
    intro c inside
    simp only [bne_iff_ne]
    rintro rfl
    exact clean (List.mem_reverse.mp inside)
  rw [column, List.reverse_append, List.takeWhile_append_of_pos passed]
  simp [column, Nat.add_comm]

theorem column_lineEnd (before : List CodePoint) : column (before ++ [newline]) = 0 := by
  simp [column]

theorem Ruled.column_lt {source before : List CodePoint} (ruled : Ruled source)
    (within : before <+: source) : column before < Position.bound := by
  have last : (before.reverse.takeWhile (· != newline)).reverse <:+ before := by
    rw [← List.reverse_prefix, List.reverse_reverse]
    exact List.takeWhile_prefix _
  have clean : newline ∉ (before.reverse.takeWhile (· != newline)).reverse := by
    intro inside
    have passed := List.all_eq_true.mp List.all_takeWhile _ (List.mem_reverse.mp inside)
    simp at passed
  have short := ruled.columns _ (last.isInfix.trans within.isInfix) clean
  rwa [List.length_reverse] at short

theorem column_advanceBy {p : Position} (somewhere : p.line ≠ 0) {n : Nat}
    (room : p.column + n ≤ Position.bound) : (p.advanceBy n).column = p.column + n := by
  induction n generalizing p with
  | zero => rfl
  | succ n ih =>
    have next : p.advance.column = p.column + 1 := by
      rw [Position.advance, if_neg]
      simp only [Position.isNowhere, Bool.or_eq_true, beq_iff_eq, decide_eq_true_eq]
      omega
    have there : p.advance.line ≠ 0 := (Position.line_advance p).symm ▸ somewhere
    rw [Position.advanceBy, ih there (by omega), next]
    omega

structure Behind (before : List CodePoint) (lost : Nat) (pos : Position) : Prop where
  line : pos.line + lost = 1 + before.count newline
  somewhere : pos.line ≠ 0
  column : lost = 0 → pos.column = column before

theorem behind_start : Behind [] 0 Position.start := ⟨rfl, by decide, fun _ => rfl⟩

section
variable {source before : List CodePoint} {lost : Nat} {pos : Position} (ruled : Ruled source)
include ruled

theorem Behind.across {text : List CodePoint} {q : Position} (h : Behind before lost pos)
    (across : pos.Over text q) (within : before ++ text <+: source) :
    Behind (before ++ text) (lost + text.count newline) q where
  line := by
    rw [List.count_append, across.line]
    have line := h.line
    omega
  somewhere := across.line ▸ h.somewhere
  column none := by
    have clean : newline ∉ text := List.count_eq_zero.mp (by omega)
    have behind := column_text before clean
    have short := ruled.column_lt within
    have here := h.column (by omega)
    rw [across.place clean, column_advanceBy h.somewhere (by omega), behind, here]

theorem Behind.lineEnd {rest : List CodePoint} {q : Position} (h : Behind before lost pos)
    (same : q.line = pos.line) (all : before ++ newline :: rest = source) (more : rest ≠ []) :
    Behind (before ++ [newline]) lost q.newLine := by
  have line := h.line
  have few := ruled.lines
  rw [← all, List.dropLast_append_of_ne_nil (List.cons_ne_nil _ _), List.dropLast_cons_of_ne_nil more,
    List.count_append, List.count_cons_self] at few
  have next : q.newLine = ⟨q.line + 1, 0⟩ := by
    rw [Position.newLine, if_neg]
    simp only [Position.isNowhere, Bool.or_eq_true, beq_iff_eq, decide_eq_true_eq]
    have somewhere := h.somewhere
    omega
  rw [next]
  refine ⟨?_, Nat.succ_ne_zero _, fun _ => (column_lineEnd before).symm⟩
  rw [List.count_append, List.count_singleton_self]
  simp only
  omega

end

/-! ### Comments -/

def hidden (pieces : List (List CodePoint)) : Nat :=
  pieces.countP fun piece => piece.tail == [newline]

theorem hidden_cons (piece : List CodePoint) (pieces : List (List CodePoint)) :
    hidden (piece :: pieces) = hidden [piece] + hidden pieces := by
  rw [hidden, hidden, hidden, List.countP_cons, List.countP_singleton, Nat.add_comm]

inductive Comment : List CodePoint → Nat → Prop
  | line {text : List CodePoint} :
    newline ∉ text → Comment (slash :: slash :: text ++ [newline]) 0
  | block {inner : List CodePoint} :
    Ends 1 (pairs inner) (pairs inner) [] → (pairs inner).foldl shift 1 = 0 →
    Comment (slash :: star :: inner) (hidden (pairs inner))

theorem lineComment_ends (text : Text) (pos : Position) (input : List CodePoint)
    (more : (lineComment text pos input).rest ≠ []) : (lineComment text pos input).level = 0 ∧
    ∃ line, input = line ++ newline :: (lineComment text pos input).rest ∧ newline ∉ line ∧
      (lineComment text pos input).pos = (pos.advanceBy line.length).newLine := by
  fun_induction lineComment text pos input with
  | case1 text pos => exact absurd rfl more
  | case2 text pos rest => exact ⟨rfl, [], rfl, List.not_mem_nil, rfl⟩
  | case3 text pos c rest other ih =>
    obtain ⟨level, line, split, clean, place⟩ := ih more
    refine ⟨level, c :: line, congrArg _ split, ?_, place⟩
    simpa using ⟨Ne.symm other, clean⟩

theorem pairs_flatten {input : List CodePoint} {inside : List (List CodePoint)}
    (within : inside <+: pairs input) : pairs inside.flatten = inside := by
  fun_induction pairs input generalizing inside with
  | case1 => rw [List.prefix_nil.mp within]; rfl
  | case2 c =>
    rcases List.prefix_cons_iff.mp within with rfl | ⟨tail, rfl, more⟩
    · rfl
    · rw [List.prefix_nil.mp more]; rfl
  | case3 c d rest pair ih =>
    rcases List.prefix_cons_iff.mp within with rfl | ⟨tail, rfl, more⟩
    · rfl
    · exact (pairs_pair pair d _).trans (congrArg _ (ih more))
  | case4 c d rest single ih =>
    rcases List.prefix_cons_iff.mp within with rfl | ⟨tail, rfl, more⟩
    · rfl
    · exact (pairs_single single _).trans (congrArg _ (ih more))

section
variable {source : List CodePoint} (ruled : Ruled source)
include ruled

/-- Over a pair of a comment: the first character is no line end, and if the second is one it is lost. -/
theorem Behind.pair {before rest : List CodePoint} {lost : Nat} {pos : Position} {c d : CodePoint}
    (h : Behind before lost pos) (pair : c = slash ∨ c = star)
    (all : before ++ c :: d :: rest = source) :
    Behind (before ++ [c, d]) (lost + hidden [[c, d]]) pos.advance.advance := by
  have plain : c ≠ newline := by
    rintro rfl
    revert pair
    decide
  have missed : hidden [[c, d]] = [c, d].count newline := by
    rw [List.count_cons_of_ne plain]
    by_cases lineEnd : d = newline
    · rw [lineEnd]
      rfl
    · rw [List.count_singleton]
      simp [hidden, lineEnd]
  rw [missed]
  exact h.across ruled (pos.over_advanceBy [c, d]) ⟨rest, by simpa using all⟩

theorem Behind.single {before rest : List CodePoint} {lost : Nat} {pos : Position} {c : CodePoint}
    (h : Behind before lost pos) (all : before ++ c :: rest = source) (more : rest ≠ []) :
    Behind (before ++ [c]) (lost + hidden [[c]])
      (if c = newline then pos.advance.newLine else pos.advance) := by
  split
  · next lineEnd =>
    subst lineEnd
    exact h.lineEnd ruled (Position.line_advance pos) all more
  · next other =>
    have clean : [c].count newline = hidden [[c]] := by
      rw [List.count_singleton]
      simp [hidden, other]
    rw [← clean]
    exact h.across ruled (pos.over_advanceBy [c]) ⟨rest, by simpa using all⟩

theorem Behind.comment {level : Nat} {text : Text} {pos : Position} {input before : List CodePoint}
    {lost : Nat} (h : Behind before lost pos) (all : before ++ input = source)
    (more : (blockComment level text pos input).rest ≠ []) :
    Behind (before ++ (extent level (pairs input)).inside.flatten)
      (lost + hidden (extent level (pairs input)).inside) (blockComment level text pos input).pos := by
  -- pair by pair; the end of the text is no end of the comment
  fun_induction blockComment level text pos input generalizing before lost with
  | case1 => exact absurd rfl more
  | case2 => exact absurd rfl more
  | case3 level text pos c pos' text' pair d rest text'' =>
    next closed =>
    have shifted : shift level [c, d] = 0 := (shift_pair level c d).trans closed
    rw [pairs_pair pair, extent, if_pos shifted]
    simpa using h.pair ruled pair all
  | case4 level text pos c pos' text' pair d rest text'' deeper =>
    next still ih =>
    have shifted : shift level [c, d] = deeper := shift_pair level c d
    rw [pairs_pair pair, extent, shifted, if_neg still]
    have behind := ih (h.pair ruled pair all) (by simpa using all) more
    rwa [Nat.add_assoc, ← hidden_cons, List.append_assoc] at behind
  | case5 text pos c rest pos' =>
    next single =>
    rw [pairs_single single, extent, shift_of_plain (plain_single c), if_pos rfl]
    simpa using h.single ruled all more
  | case6 level text pos c rest pos' text' single =>
    next still ih =>
    rw [pairs_single single, extent, shift_of_plain (plain_single c), if_neg still]
    have further : rest ≠ [] := by
      rintro rfl
      exact more rfl
    have behind := ih (h.single ruled all further) (by simpa using all) more
    rwa [Nat.add_assoc, ← hidden_cons, List.append_assoc] at behind

end

/-! ### The way through a source -/

section
variable (first : ScanState) (source : List CodePoint)

/-- How a reader comes through a source: the state that it is in, what it has read and what is left,
and the number of line ends that it has lost. -/
inductive Reaches : ScanState → List CodePoint → List CodePoint → Nat → Prop
  | start : Reaches first [] source 0
  | lineEnd {state : ScanState} {before rest : List CodePoint} {lost : Nat} :
    Reaches state before (newline :: rest) lost → Reaches state (before ++ [newline]) rest lost
  | blank {state : ScanState} {before rest : List CodePoint} {lost : Nat} {c : CodePoint} :
    isBlank c = true → Reaches state before (c :: rest) lost →
    Reaches state (before ++ [c]) rest lost
  | comment {state : ScanState} {before rest text : List CodePoint} {lost missed : Nat} :
    Comment text missed → Reaches state before (text ++ rest) lost →
    Reaches { state with afterOperand := state.keepComments || state.afterOperand } (before ++ text)
      rest (lost + missed)
  | lexeme {state : ScanState} {before input rest text : List CodePoint} {lost : Nat} {token : Token} :
    Lexeme state input text token rest → Reaches state before input lost →
    Reaches { state with afterOperand := !token.expectsOperand } (before ++ text) rest
      (lost + text.count newline)

/-- A token, a comment and the end apart, is made of a text that the reader reaches, and its place is
behind that of the text by the line ends that are lost before it. -/
def Located (token : Token) (place : Position) : Prop :=
  ∃ state before input text rest lost, Reaches first source state before input lost ∧
    Lexeme state input text token rest ∧ place.line + lost = (placeAfter before).line ∧
    (place = placeAfter (before ++ signOf text) ↔ lost = 0)

def Tracked (state : ScanState) (pos : Position) (input : List CodePoint) : Prop :=
  input ≠ [] → state.commentLevel = 0 ∧
    ∃ before lost, Reaches first source state before input lost ∧ Behind before lost pos

def IsProper : Token → Prop
  | .fault _ | .comment _ | .eof => False
  | _ => True

structure Seen (step : Step) : Prop where
  token : ∀ token place, step.token = some (token, place) → IsProper token →
    Located first source token place
  further : Tracked first source step.state step.pos step.rest

variable {first source}

theorem Reaches.split {state : ScanState} {before input : List CodePoint} {lost : Nat}
    (h : Reaches first source state before input lost) : before ++ input = source := by
  induction h with
  | start => rfl
  | lineEnd _ ih | blank _ _ ih | comment _ _ ih => simpa using ih
  | lexeme token _ ih => rwa [List.append_assoc, ← token.split]

theorem Taken.lexeme {state : ScanState} {input text rest : List CodePoint} {token : Token}
    (h : Taken state input text token rest) (opens : Opens input) :
    Lexeme state input text token rest where
  opens := opens
  split := h.split
  reads pos := by
    obtain ⟨start, after, read, _⟩ := h.reads pos
    exact ⟨start, after, read⟩

theorem signOf_split {text : List CodePoint} (filled : text ≠ []) :
    newline ∉ signOf text ∧ ∃ c tail, text = signOf text ++ c :: tail := by
  unfold signOf
  split
  · next c d tail =>
    split
    · next folded => exact ⟨by decide, d, tail, by rw [folded.1]; rfl⟩
    · exact ⟨by decide, c, d :: tail, rfl⟩
  · obtain ⟨c, tail, rfl⟩ := List.exists_cons_of_ne_nil filled
    exact ⟨by decide, c, tail, rfl⟩

theorem signOf_start (text : List CodePoint) : signOf text <+: text := by
  cases text with
  | nil => exact List.nil_prefix
  | cons d tail =>
    obtain ⟨-, c, rest, split⟩ := signOf_split (List.cons_ne_nil d tail)
    exact ⟨_, split.symm⟩

section
variable (ruled : Ruled source) {before text : List CodePoint} {lost : Nat} {pos : Position}
include ruled

theorem Behind.clean (h : Behind before lost pos) (all : before ++ text <+: source)
    (clean : newline ∉ text) : Behind (before ++ text) lost (pos.advanceBy text.length) := by
  have none : text.count newline = 0 := List.count_eq_zero.mpr clean
  simpa [none] using h.across ruled (pos.over_advanceBy text) all

theorem Behind.token {sign tail : List CodePoint} {c : CodePoint} (h : Behind before lost pos)
    (all : before ++ (sign ++ c :: tail) <+: source) (clean : newline ∉ sign ++ c :: tail) :
    (pos.advanceBy sign.length).advance.line + lost = (placeAfter before).line ∧
      ((pos.advanceBy sign.length).advance = placeAfter (before ++ sign) ↔ lost = 0) := by
  simp only [List.mem_append, List.mem_cons, not_or] at clean
  obtain ⟨unsigned, other, -⟩ := clean
  have plain : newline ∉ [c] := by simpa using other
  have front : before ++ sign ++ [c] <+: source := List.IsPrefix.trans ⟨tail, by simp⟩ all
  have signed := h.clean ruled (List.IsPrefix.trans ⟨[c], rfl⟩ front) unsigned
  have char := signed.clean ruled front plain
  have count : (before ++ sign).count newline = before.count newline := by
    rw [List.count_append, List.count_eq_zero.mpr unsigned, Nat.add_zero]
  have line : (pos.advanceBy sign.length).advance.line + lost = 1 + before.count newline := by
    have counted := signed.line
    rwa [← Position.line_advance, count] at counted
  refine ⟨line, fun same => ?_, fun none => ?_⟩
  · rw [same, placeAfter, count] at line
    simpa using line
  · have place := char.column none
    rw [column_text _ plain, Nat.add_comm] at place
    have there : (pos.advanceBy sign.length).advance.line = 1 + (before ++ sign).count newline := by
      rw [count]
      omega
    exact congr (congrArg Position.mk there) place

end

def afterComment (state : ScanState) (start : Position) (found : CommentEnd) : Step :=
  let state := { state with commentLevel := found.level }
  if state.keepComments then ⟨some (.comment found.text, start), state, found.pos, found.rest⟩
  else nextFrom state found.pos found.rest

theorem nextFrom_lineComment (state : ScanState) (level : state.commentLevel = 0) (pos : Position)
    (rest : List CodePoint) : nextFrom state pos (slash :: slash :: rest) =
      afterComment state pos.advance (lineComment (Text.lit "//") pos.advance.advance rest) := by
  have closed (text : Text) (pos : Position) (input : List CodePoint) :
      (lineComment text pos input).level = 0 := by
    fun_induction lineComment text pos input <;> simp_all
  have same : { state with commentLevel := 0 } = state := by rw [← level]
  rw [nextFrom, afterComment, closed, same]
  rfl

theorem nextFrom_blockComment (state : ScanState) (pos : Position) (rest : List CodePoint) :
    nextFrom state pos (slash :: star :: rest) =
      afterComment state pos.advance (blockComment 1 (Text.lit "/*") pos.advance.advance rest) := by
  rw [nextFrom]
  rfl

/-- What is left behind a block comment is so because the comment has ended. -/
theorem blockComment_ends (text : Text) (pos : Position) (input : List CodePoint)
    (more : (blockComment 1 text pos input).rest ≠ []) :
    (blockComment 1 text pos input).level = 0 ∧
      Comment (slash :: star :: (extent 1 (pairs input)).inside.flatten)
        (hidden (extent 1 (pairs input)).inside) ∧
      input = (extent 1 (pairs input)).inside.flatten ++ (blockComment 1 text pos input).rest := by
  obtain ⟨level, rest⟩ := blockComment_extent 1 text pos input
  have ends := extent_ends 1 (pairs input) Nat.one_pos
  have closed : (extent 1 (pairs input)).inside.foldl shift 1 = 0 := by
    refine ends.last.resolve_right fun none => more ?_
    rw [rest, none]
    rfl
  have whole : pairs (extent 1 (pairs input)).inside.flatten = (extent 1 (pairs input)).inside :=
    pairs_flatten ⟨_, ends.split.symm⟩
  refine ⟨by rw [level, extent_level, closed], ?_, ?_⟩
  · have all : Ends 1 (extent 1 (pairs input)).inside (extent 1 (pairs input)).inside [] :=
      ⟨(List.append_nil _).symm, ends.goesOn, .inr rfl⟩
    rw [← whole] at all closed
    have comment := Comment.block all closed
    rwa [whole] at comment
  · rw [rest, ← List.flatten_append, ← ends.split, flatten_pairs]

/-- If anything is left behind a comment then the comment has ended, and the reader knows its place. -/
def Passed (before : List CodePoint) (lost : Nat) (input : List CodePoint) (found : CommentEnd) : Prop :=
  found.rest ≠ [] → found.level = 0 ∧ ∃ text missed, Comment text missed ∧
    input = text ++ found.rest ∧ Behind (before ++ text) (lost + missed) found.pos

section
variable (ruled : Ruled source) {before rest : List CodePoint} {lost : Nat} {pos : Position}
include ruled

theorem Behind.opening {d : CodePoint} (h : Behind before lost pos) (plain : d ≠ newline)
    (all : before ++ slash :: d :: rest = source) :
    Behind (before ++ [slash, d]) lost pos.advance.advance := by
  have clean : newline ∉ [slash, d] := by simpa using ⟨by decide, plain.symm⟩
  exact h.clean ruled ⟨rest, by simpa using all⟩ clean

theorem lineComment_passed (h : Behind before lost pos)
    (all : before ++ slash :: slash :: rest = source) (text : Text) :
    Passed before lost (slash :: slash :: rest) (lineComment text pos.advance.advance rest) := by
  intro more
  obtain ⟨closed, line, split, clean, place⟩ := lineComment_ends _ _ _ more
  generalize (lineComment text pos.advance.advance rest).rest = later at split more
  subst split
  have opened := h.opening ruled (by decide) all
  have read := opened.clean ruled ⟨newline :: later, by simpa using all⟩ clean
  have ended := read.lineEnd ruled rfl (by simpa using all) more
  refine ⟨closed, _, _, .line clean, by simp, ?_⟩
  rw [place]
  simpa using ended

theorem blockComment_passed (h : Behind before lost pos)
    (all : before ++ slash :: star :: rest = source) (text : Text) :
    Passed before lost (slash :: star :: rest) (blockComment 1 text pos.advance.advance rest) := by
  intro more
  obtain ⟨closed, comment, split⟩ := blockComment_ends _ _ _ more
  have opened := h.opening ruled (by decide) all
  have place := opened.comment ruled (by simpa using all) more
  rw [List.append_assoc] at place
  exact ⟨closed, _, _, comment, by rw [List.cons_append, List.cons_append, ← split], place⟩

end

theorem Seen.afterComment {state : ScanState} {start : Position} {found : CommentEnd}
    {before input : List CodePoint} {lost : Nat} (level : state.commentLevel = 0)
    (reached : Reaches first source state before input lost)
    (ends : Passed before lost input found)
    (further : ∀ state, Tracked first source state found.pos found.rest →
      Seen first source (nextFrom state found.pos found.rest).remember) :
    Seen first source (afterComment state start found).remember := by
  unfold Scan.afterComment
  dsimp only
  split
  · next kept =>
    refine ⟨fun token place read proper => ?_, fun more => ?_⟩
    · cases read
      exact proper.elim
    · obtain ⟨closed, text, missed, comment, split, behind⟩ := ends more
      rw [split] at reached
      have next := reached.comment comment
      have same : { state with afterOperand := state.keepComments || state.afterOperand } =
          { state with commentLevel := found.level, afterOperand := true } := by
        cases state
        simp_all
      rw [same] at next
      exact ⟨closed, _, _, next, behind⟩
  · next skipped =>
    refine further _ fun more => ?_
    obtain ⟨closed, text, missed, comment, split, behind⟩ := ends more
    rw [split] at reached
    have next := reached.comment comment
    have same : { state with afterOperand := state.keepComments || state.afterOperand } =
        { state with commentLevel := found.level } := by
      cases state
      simp_all
    rw [same] at next
    exact ⟨closed, _, _, next, behind⟩

theorem Seen.lexeme (ruled : Ruled source) {state : ScanState} {pos : Position}
    {before input text rest : List CodePoint} {lost : Nat} {token : Token}
    (level : state.commentLevel = 0) (reached : Reaches first source state before input lost)
    (behind : Behind before lost pos) (opens : Opens input)
    (taken : Taken state input text token rest) :
    Seen first source (nextFrom state pos input).remember := by
  obtain ⟨start, after, read, across, placed⟩ := taken.reads pos
  have split := reached.split
  rw [taken.split] at split
  have progress := (nextFrom_takes state pos input).shorter token start (by rw [read])
  rw [read] at progress ⊢
  refine ⟨fun seen place same proper => ?_, fun more => ?_⟩
  · obtain ⟨rfl, rfl⟩ : token = seen ∧ start = place := by
      cases same
      exact ⟨rfl, rfl⟩
    have good : ∀ e, token ≠ .fault e := by
      rintro e rfl
      exact proper
    have shorter := progress (by cases token <;> first | rfl | exact proper.elim)
    have filled : text ≠ [] := by
      rintro rfl
      rw [taken.split] at shorter
      exact Nat.lt_irrefl _ shorter
    obtain ⟨unsigned, c, tail, parts⟩ := signOf_split filled
    have all : before ++ (signOf text ++ c :: tail) <+: source :=
      ⟨rest, by rw [← parts, List.append_assoc]; exact split⟩
    have place := behind.token ruled all (parts ▸ taken.clean good)
    rw [← placed good] at place
    exact ⟨_, _, _, _, _, _, reached, taken.lexeme opens, place⟩
  · refine ⟨level, _, _, .lexeme (taken.lexeme opens) reached, ?_⟩
    exact behind.across ruled across ⟨rest, by rw [List.append_assoc]; exact split⟩

theorem seen_nil (state : ScanState) (pos : Position) :
    Seen first source (nextFrom state pos []).remember := by
  rw [nextFrom, endStep]
  by_cases silent : state.endSilently = true
  · simp only [if_pos silent]
    exact ⟨fun _ _ read _ => (by cases read), fun more => absurd rfl more⟩
  · simp only [if_neg silent]
    refine ⟨fun token place read proper => ?_, fun more => absurd rfl more⟩
    cases read
    exact proper.elim

theorem nextFrom_seen (ruled : Ruled source) {state : ScanState} {pos : Position}
    {input : List CodePoint} (h : Tracked first source state pos input) :
    Seen first source (nextFrom state pos input).remember := by
  -- by the length of the input, of which blanks, line ends and comments take some
  induction size : input.length using Nat.strongRecOn generalizing state pos input with
  | ind size ih =>
    subst size
    match input with
    | [] => exact seen_nil state pos
    | c :: rest =>
      obtain ⟨level, before, lost, reached, behind⟩ := h (List.cons_ne_nil _ _)
      by_cases lineEnd : c = newline
      · subst lineEnd
        rw [nextFrom, if_pos rfl]
        refine ih _ (Nat.lt_succ_self _) (fun more => ?_) rfl
        exact ⟨level, _, _, reached.lineEnd,
          behind.lineEnd ruled (Position.line_advance pos) reached.split more⟩
      by_cases blank : isBlank c = true
      · obtain ⟨digit, word, double, single⟩ := starts_nothing blank
        rw [nextFrom, if_neg lineEnd, if_neg (by simp [digit]), if_neg (by simp [word]),
          if_neg double, if_neg single, if_pos blank]
        refine ih _ (Nat.lt_succ_self _) (fun _ => ?_) rfl
        have all : before ++ [c] <+: source := ⟨rest, by simpa using reached.split⟩
        have passed := behind.clean ruled all (by simpa using Ne.symm lineEnd)
        exact ⟨level, _, _, reached.blank blank, passed⟩
      by_cases comment : c = slash ∧ (rest.head? = some slash ∨ rest.head? = some star)
      · obtain ⟨rfl, head⟩ := comment
        rcases head with head | head
        · obtain ⟨later, rfl⟩ := List.head?_eq_some_iff.mp head
          rw [nextFrom_lineComment state level]
          refine Seen.afterComment level reached
            (lineComment_passed ruled behind reached.split _) fun state tracked => ih _ ?_ tracked rfl
          have shorter := lineComment_rest_length_le (Text.lit "//") pos.advance.advance later
          simp only [List.length_cons]
          omega
        · obtain ⟨later, rfl⟩ := List.head?_eq_some_iff.mp head
          rw [nextFrom_blockComment]
          refine Seen.afterComment level reached
            (blockComment_passed ruled behind reached.split _) fun state tracked => ih _ ?_ tracked rfl
          have shorter := blockComment_rest_length_le 1 (Text.lit "/*") pos.advance.advance later
          simp only [List.length_cons]
          omega
      · have opens : Opens (c :: rest) :=
          ⟨lineEnd, by simpa using blank,
            fun same => ⟨fun h => comment ⟨same, .inl h⟩, fun h => comment ⟨same, .inr h⟩⟩⟩
        obtain ⟨text, token, later, taken⟩ := taken_of_opens state opens
        exact Seen.lexeme ruled level reached behind opens taken

theorem next_seen (ruled : Ruled source) {state : ScanState} {pos : Position}
    {input : List CodePoint} (h : Tracked first source state pos input) :
    Seen first source (next state pos input) := by
  unfold next
  by_cases outside : state.commentLevel = 0
  · rw [if_pos outside]
    exact nextFrom_seen ruled h
  · have done : input = [] := by
      by_contra more
      exact outside (h more).1
    subst done
    rw [if_neg outside]
    dsimp only [blockComment]
    split
    · refine ⟨fun token place read proper => ?_, fun more => absurd rfl more⟩
      cases read
      exact proper.elim
    · exact seen_nil _ _

theorem take_located (ruled : Ruled source) (d : Dialect) (cap : Nat) {state : ScanState}
    {pos : Position} {input : List CodePoint} (h : Tracked first source state pos input)
    {token : Token} {place : Position} (taken : (token, place) ∈ d.take cap state pos input)
    (proper : IsProper token) :
    ∃ raw, token = d.filter raw ∧ Located first source raw place := by
  -- by the number of tokens, with what the reader knows behind each of them
  induction cap generalizing state pos input with
  | zero => cases taken
  | succ cap ih =>
    obtain ⟨located, further⟩ := next_seen ruled h
    rw [Dialect.take, Dialect.next] at taken
    dsimp only at taken
    cases step : (next state pos input).token with
    | none =>
      rw [step] at taken
      cases taken
    | some found =>
      obtain ⟨raw, start⟩ := found
      have here (same : (token, place) = (d.filter raw, start)) :
          ∃ raw, token = d.filter raw ∧ Located first source raw place := by
        cases same
        refine ⟨raw, rfl, located raw place step ?_⟩
        cases raw <;> trivial
      rw [step, Option.map_some] at taken
      dsimp only at taken
      split at taken
      · exact here (List.mem_singleton.mp taken)
      · rcases List.mem_cons.mp taken with same | later
        · exact here same
        · exact ih further later

/-! ### Where line ends are lost -/

def Hides (before : List CodePoint) : Prop :=
  ∃ c, (c = slash ∨ c = star) ∧ [c, newline] <:+: before

variable (first source) in
def Breaks (before : List CodePoint) : Prop :=
  ∃ state front input text e rest lost, Reaches first source state front input lost ∧
    Lexeme state input text (.fault e) rest ∧ newline ∈ text ∧ front ++ text <+: before

theorem hides_of_pair {inner piece : List CodePoint} (inside : piece ∈ pairs inner)
    (second : piece.tail = [newline]) : Hides inner := by
  fun_induction pairs inner with
  | case1 => cases inside
  | case2 c =>
    rw [List.mem_singleton.mp inside] at second
    cases second
  | case3 c d rest pair ih =>
    rcases List.mem_cons.mp inside with same | later
    · rw [same] at second
      obtain ⟨rfl, -⟩ := List.cons.inj second
      exact ⟨c, pair, [], rest, rfl⟩
    · obtain ⟨e, kind, within⟩ := ih later
      exact ⟨e, kind, within.trans ⟨[c, d], [], by simp⟩⟩
  | case4 c d rest single ih =>
    rcases List.mem_cons.mp inside with same | later
    · rw [same] at second
      cases second
    · obtain ⟨e, kind, within⟩ := ih later
      exact ⟨e, kind, within.trans ⟨[c], [], by simp⟩⟩

theorem Lexeme.taken {state : ScanState} {input text rest : List CodePoint} {token : Token}
    (h : Lexeme state input text token rest) : Taken state input text token rest := by
  obtain ⟨text', token', rest', taken⟩ := taken_of_opens state h.opens
  obtain ⟨start, after, read⟩ := h.reads Position.start
  obtain ⟨start', after', read', -⟩ := taken.reads Position.start
  rw [read] at read'
  cases read'
  have same := h.split.symm.trans taken.split
  rw [List.append_cancel_right same]
  exact taken

/-- A line end is lost in a comment behind a slash or a star, or in a faulty token. -/
theorem Reaches.lost {state : ScanState} {before input : List CodePoint} {lost : Nat}
    (h : Reaches first source state before input lost) (some : 0 < lost) :
    Hides before ∨ Breaks first source before := by
  have further {front : List CodePoint} (text : List CodePoint)
      (known : Hides front ∨ Breaks first source front) :
      Hides (front ++ text) ∨ Breaks first source (front ++ text) := by
    rcases known with ⟨c, kind, within⟩ | ⟨st, b, i, t, e, r, l, reached, lexeme, inside, within⟩
    · exact .inl ⟨c, kind, within.trans (List.prefix_append _ _).isInfix⟩
    · exact .inr ⟨st, b, i, t, e, r, l, reached, lexeme, inside,
        within.trans (List.prefix_append _ _)⟩
  -- what is lost is lost in the last step, or was lost before it
  induction h with
  | start => exact absurd some (Nat.lt_irrefl 0)
  | lineEnd _ ih | blank _ _ ih => exact further _ (ih some)
  | @comment _ before rest text lost missed comment _ ih =>
    rcases Nat.eq_zero_or_pos lost with none | more
    · refine .inl ?_
      cases comment with
      | line clean => omega
      | @block inner ends closed =>
        have missed : 0 < hidden (pairs inner) := by omega
        obtain ⟨piece, inside, second⟩ := List.countP_pos_iff.mp missed
        obtain ⟨c, kind, within⟩ := hides_of_pair inside (eq_of_beq second)
        exact ⟨c, kind, within.trans ⟨before ++ [slash, star], [], by simp⟩⟩
    · exact further _ (ih more)
  | @lexeme state before input rest text lost token lexeme reached ih =>
    rcases Nat.eq_zero_or_pos lost with none | more
    · have inside : newline ∈ text := List.count_pos_iff.mp (by omega)
      have faulty : ∃ e, token = .fault e := by
        by_contra good
        exact lexeme.taken.clean (fun e same => good ⟨e, same⟩) inside
      obtain ⟨e, rfl⟩ := faulty
      exact .inr ⟨_, _, _, _, e, _, _, reached, lexeme, inside, List.prefix_rfl⟩
    · exact further _ (ih more)

end

/-- A token that is neither a fault nor a comment is reported by as many lines too early as the reader
has lost line ends before it, and at its first character exactly if it has lost none. Line ends are lost
behind a slash or a star in a comment, and in faulty tokens. -/
theorem place_is_behind_by_lost_lines (d : Dialect) (cap : Nat) (state : ScanState)
    (source : List CodePoint) (ruled : Ruled source) (outside : state.commentLevel = 0)
    (token : Token) (place : Position)
    (taken : (token, place) ∈ d.take cap state Position.start source) (proper : IsProper token) :
    ∃ reader before text raw rest lost,
      Reaches state source reader before (text ++ rest) lost ∧
      Lexeme reader (text ++ rest) text raw rest ∧ before ++ (text ++ rest) = source ∧
      token = d.filter raw ∧
      place.line + lost = (placeAfter before).line ∧
      (place = placeAfter (before ++ signOf text) ↔ lost = 0) ∧
      (0 < lost → Hides before ∨ Breaks state source before) := by
  have tracked : Tracked state source state Position.start source := fun _ =>
    ⟨outside, _, _, .start, behind_start⟩
  obtain ⟨raw, same, reader, before, input, text, rest, lost, reached, lexeme, line, exactly⟩ :=
    take_located ruled d cap tracked taken proper
  have split := lexeme.split
  subst split
  exact ⟨reader, before, text, raw, rest, lost, reached, lexeme, reached.split, same, line, exactly,
    reached.lost⟩

def starred : List CodePoint := signChars "/* *\n*/ x"

theorem starred_read : (.identifier (Text.lit "x"), ⟨1, 9⟩) ∈
    ({} : Dialect).take 1 {} Position.start starred := by
  have split : starred = slash :: star :: signChars " *\n*/ x" := by decide +kernel
  have comment : blockComment 1 (Text.lit "/*") ⟨1, 2⟩ (signChars " *\n*/ x") =
      ⟨Text.lit "/* *\n*/", 0, ⟨1, 7⟩, [32, 120]⟩ := by
    rw [CommentEnd.mk.injEq]
    decide +kernel
  have behind : nextFrom {} ⟨1, 7⟩ [32, 120] = wordStep {} ⟨1, 9⟩ 120 [] := by
    rw [nextFrom, if_neg (by decide), if_neg (by decide), if_neg (by decide), if_neg (by decide),
      if_neg (by decide), if_pos (by decide), nextFrom, if_neg (by decide), if_neg (by decide),
      if_pos (by decide)]
    rfl
  have step : nextFrom {} Position.start starred = wordStep {} ⟨1, 9⟩ 120 [] := by
    rw [split, nextFrom_blockComment]
    change afterComment _ _ (blockComment 1 (Text.lit "/*") ⟨1, 2⟩ _) = _
    rw [comment]
    exact behind
  have word : wordToken (ascii [120]) = .identifier (Text.lit "x") := by
    have unknown : Token.ofText? (ascii [120]) = none := by
      rw [← Option.isNone_iff_eq_none]
      decide +kernel
    rw [wordToken, unknown, if_neg (by decide +kernel)]
    exact congrArg Token.identifier (by decide +kernel)
  have read : ({} : Dialect).take 1 {} Position.start starred =
      [(.identifier (Text.lit "x"), ⟨1, 9⟩)] := by
    simp only [Dialect.take, Dialect.next, next, if_pos, step, wordStep, List.takeWhile_nil, word,
      Step.remember]
    rfl
  rw [read]
  exact List.mem_singleton_self _

theorem starred_ruled : Ruled starred := ruled_of_short (by decide)

theorem place_is_behind_by_lost_lines_starred : ∃ reader before text raw rest lost,
    Reaches {} starred reader before (text ++ rest) lost ∧
    Lexeme reader (text ++ rest) text raw rest ∧ before ++ (text ++ rest) = starred ∧
    .identifier (Text.lit "x") = ({} : Dialect).filter raw ∧
    1 + lost = (placeAfter before).line ∧
    ((⟨1, 9⟩ : Position) = placeAfter (before ++ signOf text) ↔ lost = 0) ∧
    (0 < lost → Hides before ∨ Breaks {} starred before) :=
  place_is_behind_by_lost_lines {} 1 {} starred starred_ruled rfl _ _ starred_read trivial

/-- The word behind the comment is on the second line, and is reported on the first. -/
theorem line_end_in_comment_is_lost : ¬ ∀ (d : Dialect) (cap : Nat) (state : ScanState)
    (source : List CodePoint), Ruled source → state.commentLevel = 0 → ∀ token place,
    (token, place) ∈ d.take cap state Position.start source → IsProper token →
    ∃ before text rest, before ++ (text ++ rest) = source ∧
      place = placeAfter (before ++ signOf text) := by
  intro exact
  obtain ⟨before, text, rest, split, place⟩ :=
    exact {} 1 {} starred starred_ruled rfl _ _ starred_read trivial
  have within : before ++ signOf text <+: starred := by
    rw [← split, List.prefix_append_right_inj]
    exact (signOf_start text).trans (List.prefix_append _ _)
  -- the ninth column of the first line would be behind eight characters without a line end
  have size : 8 ≤ (before ++ signOf text).length := by
    have here : 1 + column (before ++ signOf text) = 9 := (congrArg Position.column place).symm
    have short : column (before ++ signOf text) ≤ (before ++ signOf text).length :=
      (List.takeWhile_prefix _).length_le.trans_eq (List.length_reverse ..)
    omega
  have none : newline ∉ before ++ signOf text := by
    have here : 1 + (before ++ signOf text).count newline = 1 :=
      (congrArg Position.line place).symm
    exact List.count_eq_zero.mp (by omega)
  rw [List.prefix_iff_eq_take.mp within] at none
  have early : newline ∈ starred.take 8 := by decide
  exact none ((List.take_prefix_take_left size).subset early)

end Scripting.Scan
