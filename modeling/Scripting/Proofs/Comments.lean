import Scripting.Token.Scan

/-
Where a block comment ends. A comment is read in pieces: a slash or a star takes the character behind
it along, every other character stands alone. Its delimiters mark other pieces, for which only the two
characters of a delimiter belong together. Both readings end a comment behind the piece that brings
its level to zero; they part where a pair that is no delimiter takes the start of one along.
-/
namespace Scripting.Scan

def opening : List CodePoint := [slash, star]

def closing : List CodePoint := [star, slash]

def IsDelimiter (piece : List CodePoint) : Prop := piece = opening ∨ piece = closing

instance (piece : List CodePoint) : Decidable (IsDelimiter piece) :=
  inferInstanceAs (Decidable (_ ∨ _))

def pairs : List CodePoint → List (List CodePoint)
  | [] => []
  | [c] => [[c]]
  | c :: d :: rest =>
    if c = slash ∨ c = star then [c, d] :: pairs rest else [c] :: pairs (d :: rest)

def delimited : List CodePoint → List (List CodePoint)
  | [] => []
  | [c] => [[c]]
  | c :: d :: rest =>
    if IsDelimiter [c, d] then [c, d] :: delimited rest else [c] :: delimited (d :: rest)

def shift (level : Nat) (piece : List CodePoint) : Nat :=
  if piece = opening then level + 1 else if piece = closing then level - 1 else level

/-- The comment ends behind the first piece that brings the level to zero, and if there is none with
the text. -/
structure Ends (level : Nat) (pieces inside outside : List (List CodePoint)) : Prop where
  split : pieces = inside ++ outside
  goesOn : ∀ front, front <+: inside → front ≠ inside → front.foldl shift level ≠ 0
  last : inside.foldl shift level = 0 ∨ outside = []

/-- A pair that is no delimiter takes the start of a delimiter along, and the comment is still open. -/
def Misread (level : Nat) (input : List CodePoint) : Prop :=
  ∃ front c d e back, pairs input = front ++ [c, d] :: back ∧
    (∀ before, before <+: front → before.foldl shift level ≠ 0) ∧ ¬ IsDelimiter [c, d] ∧
    back.flatten.head? = some e ∧ IsDelimiter [d, e]

theorem flatten_pairs (input : List CodePoint) : (pairs input).flatten = input := by
  fun_induction pairs input with
  | case1 => rfl
  | case2 c => rfl
  | case3 c d rest pair ih => simp [ih]
  | case4 c d rest single ih => simp [ih]

theorem flatten_delimited (input : List CodePoint) : (delimited input).flatten = input := by
  fun_induction delimited input with
  | case1 => rfl
  | case2 c => rfl
  | case3 c d rest pair ih => simp [ih]
  | case4 c d rest single ih => simp [ih]

theorem shift_of_plain {piece : List CodePoint} (h : ¬ IsDelimiter piece) (level : Nat) :
    shift level piece = level := by
  unfold IsDelimiter at h
  unfold shift
  rw [if_neg fun same => h (.inl same), if_neg fun same => h (.inr same)]

theorem plain_single (c : CodePoint) : ¬ IsDelimiter [c] := by simp [IsDelimiter, opening, closing]

theorem pair_of_delimiter {c d : CodePoint} (h : IsDelimiter [c, d]) : c = slash ∨ c = star := by
  unfold IsDelimiter opening closing at h
  rcases h with same | same
  · cases same
    exact .inl rfl
  · cases same
    exact .inr rfl

structure Extent where
  inside : List (List CodePoint)
  level : Nat
  outside : List (List CodePoint)

def extent (level : Nat) : List (List CodePoint) → Extent
  | [] => ⟨[], level, []⟩
  | piece :: rest =>
    if shift level piece = 0 then ⟨[piece], 0, rest⟩
    else
      let more := extent (shift level piece) rest
      ⟨piece :: more.inside, more.level, more.outside⟩

theorem extent_level (level : Nat) (pieces : List (List CodePoint)) :
    (extent level pieces).level = (extent level pieces).inside.foldl shift level := by
  induction pieces generalizing level with
  | nil => rfl
  | cons piece rest ih =>
    unfold extent
    split
    · next closed => simp [closed]
    · exact ih _

theorem extent_split (level : Nat) (pieces : List (List CodePoint)) :
    pieces = (extent level pieces).inside ++ (extent level pieces).outside := by
  induction pieces generalizing level with
  | nil => rfl
  | cons piece rest ih =>
    unfold extent
    split
    · rfl
    · exact congrArg _ (ih _)

theorem extent_ends (level : Nat) (pieces : List (List CodePoint)) (inside : 0 < level) :
    Ends level pieces (extent level pieces).inside (extent level pieces).outside := by
  induction pieces generalizing level with
  | nil => exact ⟨rfl, fun front within other => absurd (List.prefix_nil.mp within) other, .inr rfl⟩
  | cons piece rest ih =>
    have start : ∀ front : List (List CodePoint), front <+: [] → front.foldl shift level ≠ 0 := by
      intro front within
      rw [List.prefix_nil.mp within]
      exact Nat.ne_of_gt inside
    unfold extent
    split
    · next closed =>
      refine ⟨rfl, ?_, .inl (by simpa using closed)⟩
      intro front within other
      rcases List.prefix_cons_iff.mp within with rfl | ⟨tail, rfl, more⟩
      · exact start [] List.prefix_rfl
      · exact absurd (by rw [List.prefix_nil.mp more]) other
    · next still =>
      obtain ⟨split, goesOn, last⟩ := ih _ (Nat.pos_of_ne_zero still)
      refine ⟨congrArg _ split, ?_, last⟩
      intro front within other
      rcases List.prefix_cons_iff.mp within with rfl | ⟨tail, rfl, more⟩
      · exact start [] List.prefix_rfl
      · exact goesOn tail more fun same => other (by rw [same])

theorem extent_append (level : Nat) (front rest : List (List CodePoint))
    (goesOn : ∀ before, before <+: front → before.foldl shift level ≠ 0) :
    (extent level (front ++ rest)).level = (extent (front.foldl shift level) rest).level ∧
      (extent level (front ++ rest)).outside = (extent (front.foldl shift level) rest).outside := by
  induction front generalizing level with
  | nil => exact ⟨rfl, rfl⟩
  | cons piece front ih =>
    have still : shift level piece ≠ 0 :=
      goesOn [piece] (List.cons_prefix_cons.mpr ⟨rfl, List.nil_prefix⟩)
    rw [List.cons_append, extent, if_neg still]
    exact ih _ fun before within => goesOn (piece :: before) (List.cons_prefix_cons.mpr ⟨rfl, within⟩)

theorem pairs_pair {c : CodePoint} (h : c = slash ∨ c = star) (d : CodePoint)
    (rest : List CodePoint) : pairs (c :: d :: rest) = [c, d] :: pairs rest := by
  rw [pairs, if_pos h]

theorem pairs_single {c : CodePoint} (h : ¬ (c = slash ∨ c = star)) (rest : List CodePoint) :
    pairs (c :: rest) = [c] :: pairs rest := by
  cases rest with
  | nil => rfl
  | cons d rest => rw [pairs, if_neg h]

theorem shift_pair (level : Nat) (c d : CodePoint) :
    shift level [c, d] = if c = slash ∧ d = star then level + 1
      else if c = star ∧ d = slash then level - 1 else level := by
  simp [shift, opening, closing]

theorem blockComment_extent (level : Nat) (text : Text) (pos : Position) (input : List CodePoint) :
    (blockComment level text pos input).level = (extent level (pairs input)).level ∧
      (blockComment level text pos input).rest = (extent level (pairs input)).outside.flatten := by
  fun_induction blockComment level text pos input with
  | case1 level text pos => exact ⟨rfl, rfl⟩
  | case2 level text pos c pos' text' pair =>
    rw [pairs, extent, shift_of_plain (plain_single c)]
    split
    · next closed => exact ⟨closed, rfl⟩
    · exact ⟨rfl, rfl⟩
  | case3 level text pos c pos' text' pair d rest text'' deeper closed =>
    have shifted : shift level [c, d] = 0 := (shift_pair level c d).trans closed
    rw [pairs_pair pair, extent, if_pos shifted]
    exact ⟨rfl, (flatten_pairs rest).symm⟩
  | case4 level text pos c pos' text' pair d rest text'' deeper still ih =>
    have shifted : shift level [c, d] = deeper := shift_pair level c d
    rw [pairs_pair pair, extent, shifted, if_neg still]
    exact ih
  | case5 text pos c rest pos' text' single =>
    rw [pairs_single single, extent, shift_of_plain (plain_single c), if_pos rfl]
    exact ⟨rfl, (flatten_pairs rest).symm⟩
  | case6 level text pos c rest pos' text' single still ih =>
    rw [pairs_single single, extent, shift_of_plain (plain_single c), if_neg still]
    exact ih

theorem Misread.behind {level : Nat} {piece rest input : List CodePoint} (inside : 0 < level)
    (first : pairs input = piece :: pairs rest) (h : Misread (shift level piece) rest) :
    Misread level input := by
  obtain ⟨front, c, d, e, back, split, goesOn, plain, next, delimiter⟩ := h
  refine ⟨piece :: front, c, d, e, back, by rw [first, split]; rfl, ?_, plain, next, delimiter⟩
  intro before within
  rcases List.prefix_cons_iff.mp within with rfl | ⟨tail, rfl, more⟩
  · exact Nat.ne_of_gt inside
  · exact goesOn tail more

theorem extent_delimited {level : Nat} {input : List CodePoint} (inside : 0 < level)
    (clear : ¬ Misread level input) :
    (extent level (pairs input)).level = (extent level (delimited input)).level ∧
      (extent level (pairs input)).outside.flatten =
        (extent level (delimited input)).outside.flatten := by
  -- by the length of the text, of which a turn takes one or two characters
  induction size : input.length using Nat.strongRecOn generalizing level input with
  | ind size ih =>
    subst size
    match input with
    | [] => exact ⟨rfl, rfl⟩
    | [c] => exact ⟨rfl, rfl⟩
    | c :: d :: rest =>
      have still : level ≠ 0 := Nat.ne_of_gt inside
      have shorter : rest.length < (c :: d :: rest).length := by
        simp only [List.length_cons]
        omega
      by_cases delimiter : IsDelimiter [c, d]
      · have pair := pairs_pair (pair_of_delimiter delimiter) d rest
        rw [pair, delimited, if_pos delimiter, extent, extent]
        split
        · exact ⟨rfl, by rw [flatten_pairs, flatten_delimited]⟩
        · next open' =>
          have inside' := Nat.pos_of_ne_zero open'
          exact ih rest.length shorter inside' (fun h => clear (h.behind inside pair)) rfl
      · rw [delimited, if_neg delimiter]
        by_cases taking : c = slash ∨ c = star
        · have pair := pairs_pair taking d rest
          rw [pair, extent, shift_of_plain delimiter, if_neg still]
          have behind : ¬ Misread level rest := fun h =>
            clear (Misread.behind inside pair (by rwa [shift_of_plain delimiter]))
          obtain ⟨sameLevel, sameRest⟩ := ih rest.length shorter inside behind rfl
          -- The character taken along is skipped by the other reading in a turn of its own.
          have skipped : delimited (d :: rest) = [d] :: delimited rest := by
            cases rest with
            | nil => rfl
            | cons e later =>
              rw [delimited, if_neg]
              intro next
              refine clear ⟨[], c, d, e, pairs (e :: later), pair, ?_, delimiter, ?_, next⟩
              · intro before within
                rw [List.prefix_nil.mp within]
                exact still
              · rw [flatten_pairs]
                rfl
          rw [extent, shift_of_plain (plain_single c), if_neg still, skipped, extent,
            shift_of_plain (plain_single d), if_neg still]
          exact ⟨sameLevel, sameRest⟩
        · have single := pairs_single taking (d :: rest)
          rw [single, extent, extent, shift_of_plain (plain_single c), if_neg still, if_neg still]
          exact ih (d :: rest).length (by simp) inside
            (fun h => clear (Misread.behind inside single
              (by rwa [shift_of_plain (plain_single c)]))) rfl

/-- A star that takes along the star of the closing delimiter keeps the comment open there. -/
theorem extent_missed (level : Nat) (front : List (List CodePoint)) (rest : List CodePoint)
    (goesOn : ∀ before, before <+: front → before.foldl shift level ≠ 0) :
    ¬ ((extent level (front ++ [star, star] :: pairs (slash :: rest))).level = 0 ∧
      (extent level (front ++ [star, star] :: pairs (slash :: rest))).outside.flatten = rest) := by
  obtain ⟨sameLevel, sameRest⟩ :=
    extent_append level front ([star, star] :: pairs (slash :: rest)) goesOn
  have still := goesOn front List.prefix_rfl
  generalize front.foldl shift level = deeper at still sameLevel sameRest
  have plain : ¬ IsDelimiter [star, star] := by decide
  rw [sameLevel, sameRest, extent, shift_of_plain plain, if_neg still]
  rintro ⟨closed, same⟩
  cases rest with
  | nil =>
    rw [pairs, extent, shift_of_plain (plain_single slash), if_neg still] at closed
    exact still closed
  | cons d later =>
    rw [pairs_pair (.inl rfl), extent] at same
    have shorter : later.length < (d :: later).length := Nat.lt_succ_self _
    split at same
    · rw [flatten_pairs] at same
      exact absurd (congrArg List.length same) (Nat.ne_of_lt shorter)
    · next deeper' =>
      have split := congrArg List.flatten (extent_split (shift deeper [slash, d]) (pairs later))
      rw [flatten_pairs, List.flatten_append] at split
      have within := congrArg List.length split
      rw [List.length_append, same] at within
      omega

/-- A comment is read in pairs behind a slash or a star, and ends behind the pair that brings its level
to zero or else with the text. This is where its delimiters end it, unless a pair takes the start of
one along; a closing delimiter that is taken apart so never ends the comment. -/
theorem comment_ends_unless_misread (level : Nat) (text : Text) (pos : Position)
    (input : List CodePoint) :
    (∃ inner outer, Ends (level + 1) (pairs input) inner outer ∧
      (blockComment (level + 1) text pos input).level = inner.foldl shift (level + 1) ∧
      (blockComment (level + 1) text pos input).rest = outer.flatten) ∧
    (¬ Misread (level + 1) input → ∃ inner outer, Ends (level + 1) (delimited input) inner outer ∧
      (blockComment (level + 1) text pos input).level = inner.foldl shift (level + 1) ∧
      (blockComment (level + 1) text pos input).rest = outer.flatten) ∧
    (∀ front rest, pairs input = front ++ [star, star] :: pairs (slash :: rest) →
      (∀ before, before <+: front → before.foldl shift (level + 1) ≠ 0) →
      ¬ ((blockComment (level + 1) text pos input).level = 0 ∧
        (blockComment (level + 1) text pos input).rest = rest)) := by
  have inside : 0 < level + 1 := Nat.succ_pos level
  obtain ⟨sameLevel, sameRest⟩ := blockComment_extent (level + 1) text pos input
  rw [sameLevel, sameRest]
  refine ⟨⟨_, _, extent_ends _ _ inside, extent_level _ _, rfl⟩, ?_, ?_⟩
  · intro clear
    obtain ⟨agreeLevel, agreeRest⟩ := extent_delimited inside clear
    rw [agreeLevel, agreeRest]
    exact ⟨_, _, extent_ends _ _ inside, extent_level _ _, rfl⟩
  · intro front rest split goesOn
    rw [split]
    exact extent_missed _ front rest goesOn

/-- The delimiters end the comment with the text `**/ 1` behind the slash, but it is read to the end. -/
theorem closing_delimiter_is_missed : ¬ ∀ text pos input, ∃ inner outer,
    Ends 1 (delimited input) inner outer ∧ (blockComment 1 text pos input).rest = outer.flatten := by
  intro agree
  obtain ⟨inner, outer, ends, rest⟩ := agree [] Position.start (signChars "**/ 1")
  have missed : (blockComment 1 [] Position.start (signChars "**/ 1")).rest = [] := by
    decide +kernel
  have filled : ∀ piece ∈ delimited (signChars "**/ 1"), piece ≠ [] := by decide +kernel
  have used : outer = [] := by
    cases outer with
    | nil => rfl
    | cons piece later =>
      rw [missed, List.flatten_cons, eq_comm, List.append_eq_nil_iff] at rest
      exact absurd rest.1 (filled piece (by simp [ends.split]))
  have all : delimited (signChars "**/ 1") = inner := by simpa [used] using ends.split
  have early : [[star], closing] <+: delimited (signChars "**/ 1") := by decide +kernel
  have more : [[star], closing] ≠ delimited (signChars "**/ 1") := by decide +kernel
  exact ends.goesOn _ (all ▸ early) (all ▸ more) (by decide)

end Scripting.Scan
