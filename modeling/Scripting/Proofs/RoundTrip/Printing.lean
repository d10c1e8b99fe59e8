import Scripting.Proofs.RoundTrip.Parsing
import Scripting.Proofs.RoundTrip.Tokens
import Scripting.Value.Display
import Scripting.Value.Equal

/-
Printed values side by side with what is read back: the characters of a value, its tokens, and the
value that the tokens stand for. In a map a sign stands behind a colon, where it is a token of its
own, and the opposite of the least integer is read as a float.
-/
namespace Scripting

def Text.Legible (t : Text) : Prop := ∃ cs, (∀ c ∈ cs, c.toNat < 0x200000) ∧ Utf8.encodeAll cs = t

structure Printout where
  chars : List CodePoint
  tokens : List Token
  back : Value

def joined (groups : List (List CodePoint)) : List CodePoint := [44, 32].intercalate groups

def entryChars (key value : List CodePoint) : List CodePoint :=
  Quoted.chars Scan.doubleQuote key ++ 58 :: 32 :: value

namespace Value

inductive Prints : Bool → Value → Printout → Prop where
  | unit (inMap : Bool) : Prints inMap .unit
      ⟨[40, 41], [.symbol .leftParen, .symbol .rightParen], .unit⟩
  | bool (inMap b : Bool) : Prints inMap (.bool b)
      ⟨Scan.boolChars b, [.symbol (Scan.boolSymbol b)], .bool b⟩
  | natural (inMap : Bool) {n : Integer} (h : ¬ n.val < 0) : Prints inMap (.i64 n)
      ⟨Scan.wide (Text.ofNat n.val.natAbs), [.integer n], .i64 n⟩
  | negative {n : Integer} (h : n.val < 0) : Prints false (.i64 n)
      ⟨45 :: Scan.wide (Text.ofNat n.val.natAbs), [.integer n], .i64 n⟩
  | opposite {n m : Integer} (h : n.val < 0) (opposite : m.val = -n.val) : Prints true (.i64 n)
      ⟨45 :: Scan.wide (Text.ofNat n.val.natAbs), [.symbol .minus, .integer m], .i64 n⟩
  | least {n : Integer} {f : Float} (h : n.val = IntType.i64.least)
      (read : Decimal.read? false (Text.ofNat n.val.natAbs) = some f) : Prints true (.i64 n)
      ⟨45 :: Scan.wide (Text.ofNat n.val.natAbs), [.symbol .minus, .float f], .float (-f)⟩
  | char (inMap : Bool) {c : CodePoint} (small : c.toNat < 0x200000) : Prints inMap (.char c)
      ⟨Quoted.chars Scan.singleQuote [c], [.char c], .char c⟩
  | string (inMap : Bool) {cs : List CodePoint} (small : ∀ c ∈ cs, c.toNat < 0x200000) :
      Prints inMap (.string (Utf8.encodeAll cs))
        ⟨Quoted.chars Scan.doubleQuote cs, [.string (Utf8.encodeAll cs)],
          .string (Utf8.encodeAll cs)⟩
  | array (inMap : Bool) (rows : List (Value × Printout))
      (each : ∀ row ∈ rows, Prints false row.1 row.2) :
      Prints inMap (.array (rows.map (·.1)))
        ⟨91 :: (joined (rows.map (·.2.chars)) ++ [93]),
          .symbol .leftBracket ::
            (Grammar.separated (rows.map (·.2.tokens)) ++ [.symbol .rightBracket]),
          .array (rows.map (·.2.back))⟩
  | map (inMap : Bool) (rows : List (List CodePoint × Value × Printout))
      (small : ∀ row ∈ rows, ∀ c ∈ row.1, c.toNat < 0x200000)
      (ordered : rows.Pairwise fun a b => Utf8.encodeAll a.1 < Utf8.encodeAll b.1)
      (each : ∀ row ∈ rows, Prints true row.2.1 row.2.2) :
      Prints inMap (.map (rows.map fun row => (Utf8.encodeAll row.1, row.2.1)))
        ⟨35 :: 123 :: (joined (rows.map fun row => entryChars row.1 row.2.2.chars) ++ [125]),
          .symbol .mapStart :: (Grammar.separated (rows.map fun row =>
            Grammar.entryTokens (Utf8.encodeAll row.1) row.2.2.tokens) ++ [.symbol .rightBrace]),
          .map (rows.map fun row => (Utf8.encodeAll row.1, row.2.2.back))⟩

mutual

/-- Something is changed by printing and reading back: the least integer, behind the colon of a map
entry. -/
def altered : Bool → Value → Bool
  | inMap, .int _ n => inMap && n.val == IntType.i64.least
  | _, .array items => anyItemAltered items
  | _, .map entries => anyEntryAltered entries
  | _, _ => false

def anyItemAltered : List Value → Bool
  | [] => false
  | v :: rest => v.altered false || anyItemAltered rest

def anyEntryAltered : List (Text × Value) → Bool
  | [] => false
  | entry :: rest => entryAltered entry || anyEntryAltered rest

def entryAltered : Text × Value → Bool
  | (_, v) => v.altered true

end

theorem anyItemAltered_eq (items : List Value) :
    anyItemAltered items = items.any (altered false) := by
  induction items with
  | nil => rfl
  | cons v rest ih => rw [anyItemAltered, ih, List.any_cons]

theorem anyEntryAltered_eq (entries : List (Text × Value)) :
    anyEntryAltered entries = entries.any fun entry => entry.2.altered true := by
  induction entries with
  | nil => rfl
  | cons entry rest ih => rw [anyEntryAltered, ih, List.any_cons, entryAltered]

namespace Prints

variable {inMap : Bool} {v : Value} {p : Printout}

/-! The characters. -/

theorem small_of_all {cs : List CodePoint} (h : cs.all (fun c => c.toNat < 0x200000) = true) :
    ∀ c ∈ cs, c.toNat < 0x200000 := by
  simpa using h

theorem small_enclosed (front : List CodePoint) {c : CodePoint} {groups : List (List CodePoint)}
    (first : ∀ c ∈ front, c.toNat < 0x200000) (last : c.toNat < 0x200000)
    (each : ∀ group ∈ groups, ∀ c ∈ group, c.toNat < 0x200000) :
    ∀ d ∈ front ++ (joined groups ++ [c]), d.toNat < 0x200000 := by
  have commas : ∀ c ∈ ([44, 32] : List CodePoint), c.toNat < 0x200000 := small_of_all rfl
  intro d member
  simp only [List.mem_append, List.mem_singleton] at member
  rcases member with opening | inside | rfl
  · exact first d opening
  · obtain comma | ⟨group, member, inside⟩ := mem_of_mem_intercalate inside
    · exact commas d comma
    · exact each group member d inside
  · exact last

theorem small (h : Prints inMap v p) : ∀ c ∈ p.chars, c.toNat < 0x200000 := by
  have signed (n : Nat) : ∀ c ∈ 45 :: Scan.wide (Text.ofNat n), c.toNat < 0x200000 :=
    List.forall_mem_cons.mpr ⟨by decide, Scan.small_wide (Text.ofNat n)⟩
  induction h with
  | unit => exact small_of_all rfl
  | bool inMap b => cases b <;> exact small_of_all rfl
  | natural inMap h => exact Scan.small_wide _
  | negative h => exact signed _
  | opposite h opposite => exact signed _
  | least h read => exact signed _
  | char inMap small => exact Quoted.small_of_mem_chars (.inr rfl) (by simpa using small)
  | string inMap small => exact Quoted.small_of_mem_chars (.inl rfl) small
  | array inMap rows each ih =>
    refine small_enclosed [91] (small_of_all rfl) (by decide) fun group member => ?_
    obtain ⟨row, own, rfl⟩ := List.mem_map.mp member
    exact ih row own
  | map inMap rows small ordered each ih =>
    refine small_enclosed [35, 123] (small_of_all rfl) (by decide) fun group member => ?_
    obtain ⟨row, own, rfl⟩ := List.mem_map.mp member
    intro c inside
    simp only [entryChars, List.mem_append, List.mem_cons] at inside
    rcases inside with key | rfl | rfl | value
    · exact Quoted.small_of_mem_chars (.inl rfl) (small row own) c key
    · decide
    · decide
    · exact ih row own c value

/-! The text. -/

theorem encodeAll_wide (n : Nat) : Utf8.encodeAll (Scan.wide (Text.ofNat n)) = Text.ofNat n := by
  have digits : ∀ d ∈ Text.ofNat n, Utf8.encode d.toUInt32 = [d] := by
    intro d member
    have digit : Text.isDigit d = true := List.all_eq_true.mp (Text.isDigit_ofNat n) d member
    have low : d.toNat ≤ 57 := by
      simp [Text.isDigit, UInt8.le_iff_toNat_le] at digit
      exact digit.2
    rw [Utf8.encode_ascii (by rw [UInt8.toNat_toUInt32]; omega), UInt8.toUInt8_toUInt32]
  rw [Utf8.encodeAll, Scan.wide, List.flatMap_map, List.flatMap_congr digits]
  simp

theorem join_encodeAll (groups : List (List CodePoint)) :
    Text.join (Text.lit ", ") (groups.map Utf8.encodeAll) = Utf8.encodeAll (joined groups) := by
  have comma : Utf8.encodeAll [44, 32] = Text.lit ", " := by with_unfolding_all rfl
  induction groups with
  | nil => rfl
  | cons group groups ih =>
    cases groups with
    | nil => simp [Text.join, joined]
    | cons next more =>
      rw [joined, List.intercalate_cons_cons, Utf8.encodeAll_append, Utf8.encodeAll_append, comma]
      rw [← joined, ← ih]
      rfl

theorem mapM_of_ok {ε α β γ : Type} {f : β → Except ε γ} {g : α → β} {k : α → γ} (rows : List α)
    (h : ∀ row ∈ rows, f (g row) = .ok (k row)) : (rows.map g).mapM f = .ok (rows.map k) := by
  induction rows with
  | nil => rfl
  | cons row rows ih =>
    have first := h row List.mem_cons_self
    have later := ih fun r hr => h r (List.mem_cons_of_mem _ hr)
    rw [List.map_cons, List.mapM_cons, first, later]
    rfl

theorem encodeAll_negative {n : Int} (h : n < 0) :
    Utf8.encodeAll (45 :: Scan.wide (Text.ofNat n.natAbs)) = Text.ofInt n := by
  have sign : Utf8.encode 45 = Text.lit "-" := by with_unfolding_all rfl
  rw [Text.ofInt, if_pos h, ← sign, Utf8.encodeAll, List.flatMap_cons, ← Utf8.encodeAll,
    encodeAll_wide]

theorem write_entry {cs value : List CodePoint} (small : ∀ c ∈ cs, c.toNat < 0x200000) :
    Quoted.write Quoted.doubleQuote (Utf8.encodeAll cs) ++ Text.lit ": " ++ Utf8.encodeAll value =
      Utf8.encodeAll (entryChars cs value) := by
  have colon : Utf8.encodeAll [58, 32] = Text.lit ": " := by with_unfolding_all rfl
  have quoted : Quoted.write Quoted.doubleQuote (Utf8.encodeAll cs) =
      Utf8.encodeAll (Quoted.chars Scan.doubleQuote cs) := Quoted.write_encodeAll (.inl rfl) small
  rw [quoted, ← colon, ← Utf8.encodeAll_append, ← Utf8.encodeAll_append, List.append_assoc]
  rfl

theorem encodeAll_enclosed {front : List CodePoint} {opener closer : String} {c : CodePoint}
    (first : Utf8.encodeAll front = Text.lit opener) (last : Utf8.encodeAll [c] = Text.lit closer)
    (groups : List (List CodePoint)) :
    Text.lit opener ++ Text.join (Text.lit ", ") (groups.map Utf8.encodeAll) ++ Text.lit closer =
      Utf8.encodeAll (front ++ (joined groups ++ [c])) := by
  rw [join_encodeAll, ← first, ← last, ← Utf8.encodeAll_append, ← Utf8.encodeAll_append,
    List.append_assoc]

theorem debugText (h : Prints inMap v p) : Enough fun fuel =>
    ∀ s, v.debugText s fuel = .ok (Utf8.encodeAll p.chars) := by
  have scalar {v : Value} {chars : List CodePoint}
      (h : ∀ fuel s, v.debugText s (fuel + 1) = .ok (Utf8.encodeAll chars)) :
      Enough fun fuel => ∀ s, v.debugText s fuel = .ok (Utf8.encodeAll chars) :=
    .succ (.always h)
  induction h with
  | unit =>
    have text : Utf8.encodeAll [40, 41] = Text.lit "()" := by with_unfolding_all rfl
    exact scalar fun fuel s => congrArg Except.ok text.symm
  | bool inMap b =>
    have text : Utf8.encodeAll (Scan.boolChars b) = (Value.bool b).scalarText := by
      cases b <;> with_unfolding_all rfl
    exact scalar fun fuel s => congrArg Except.ok text.symm
  | @natural inMap n h =>
    have text : Utf8.encodeAll (Scan.wide (Text.ofNat n.val.natAbs)) = Text.ofInt n.val := by
      rw [encodeAll_wide, Text.ofInt, if_neg h]
    exact scalar fun fuel s => congrArg Except.ok text.symm
  | negative h => exact scalar fun fuel s => congrArg Except.ok (encodeAll_negative h).symm
  | opposite h opposite =>
    exact scalar fun fuel s => congrArg Except.ok (encodeAll_negative h).symm
  | @least n f h read =>
    have below : n.val < 0 := by
      rw [h]
      decide
    exact scalar fun fuel s => congrArg Except.ok (encodeAll_negative below).symm
  | @char inMap c small =>
    have text : Quoted.write Quoted.singleQuote (Utf8.encodeAll [c]) =
        Utf8.encodeAll (Quoted.chars Scan.singleQuote [c]) :=
      Quoted.write_encodeAll (.inr rfl) (by simpa using small)
    rw [Utf8.encodeAll, List.flatMap_singleton] at text
    exact scalar fun fuel s => congrArg Except.ok text
  | @string inMap cs small =>
    have text : Quoted.write Quoted.doubleQuote (Utf8.encodeAll cs) =
        Utf8.encodeAll (Quoted.chars Scan.doubleQuote cs) :=
      Quoted.write_encodeAll (.inl rfl) small
    exact scalar fun fuel s => congrArg Except.ok text
  | array inMap rows each ih =>
    refine .succ ((Enough.all ih).imp fun fuel texts s => ?_)
    have opened : Utf8.encodeAll [91] = Text.lit "[" := by with_unfolding_all rfl
    have closed : Utf8.encodeAll [93] = Text.lit "]" := by with_unfolding_all rfl
    have all := mapM_of_ok rows (f := Value.debugText s fuel) fun row own => texts row own s
    have text := encodeAll_enclosed opened closed (rows.map (·.2.chars))
    rw [List.map_map] at text
    rw [Value.debugText, all]
    exact congrArg Except.ok text
  | map inMap rows small ordered each ih =>
    refine .succ ((Enough.all ih).imp fun fuel texts s => ?_)
    have opened : Utf8.encodeAll [35, 123] = Text.lit "#\x7b" := by with_unfolding_all rfl
    have closed : Utf8.encodeAll [125] = Text.lit "\x7d" := by with_unfolding_all rfl
    -- The texts of the entries, each with its key in front.
    have all := mapM_of_ok rows
      (f := fun entry : Text × Value => do
        return Quoted.write Quoted.doubleQuote entry.1 ++ Text.lit ": " ++
          (← Value.debugText s fuel entry.2))
      (g := fun row => (Utf8.encodeAll row.1, row.2.1))
      (k := fun row => Utf8.encodeAll (entryChars row.1 row.2.2.chars)) fun row own => by
        rw [← write_entry (small row own), texts row own s]
        rfl
    have text := encodeAll_enclosed opened closed
      (rows.map fun row => entryChars row.1 row.2.2.chars)
    rw [List.map_map] at text
    rw [Value.debugText, all]
    exact congrArg Except.ok text

/-! The tokens, in a dialect that switches nothing off. -/

variable {d : Dialect}

theorem lexes_mark (plain : d.disabled = []) {b : Bool} {symbol : Symbol} {c : CodePoint}
    {avoid rest : List CodePoint} (h : Scan.mark? symbol = some (c, avoid))
    (clear : ∀ d ∈ rest.head?, d ∉ avoid) :
    d.Lexes b (c :: rest) [.symbol symbol] (!symbol.expectsOperand) rest :=
  .one (Scan.gives_mark h clear) (Dialect.filter_symbol plain symbol) rfl

def Group (d : Dialect) (b : Bool) (chars : List CodePoint) (tokens : List Token) : Prop :=
  ∀ rest, Scan.Boundary rest → d.Lexes b (chars ++ rest) tokens true rest

theorem boundary_behind (groups : List (List CodePoint)) {c : CodePoint} (ends : c ∈ [93, 125])
    (rest : List CodePoint) : Scan.Boundary (groups.flatMap ([44, 32] ++ ·) ++ c :: rest) := by
  cases groups with
  | nil =>
    intro d head
    cases head
    exact List.mem_cons_of_mem _ (List.mem_cons_of_mem _ ends)
  | cons group groups =>
    intro d head
    cases head
    exact List.mem_cons_of_mem _ List.mem_cons_self

section

variable {α : Type} {chars : α → List CodePoint} {tokens : α → List Token} {closer : Symbol}
variable {c : CodePoint}

theorem lexes_behind (plain : d.disabled = []) (rows : List α)
    (later : ∀ row ∈ rows, Group d false (chars row) (tokens row)) (ends : c ∈ [93, 125])
    {rest : List CodePoint} (last : d.Lexes true (c :: rest) [.symbol closer] true rest) :
    d.Lexes true ((rows.map chars).flatMap ([44, 32] ++ ·) ++ c :: rest)
      (Grammar.continued (rows.map tokens) ++ [.symbol closer]) true rest := by
  induction rows with
  | nil => exact last
  | cons row rows ih =>
    have group := later row List.mem_cons_self _ (boundary_behind (rows.map chars) ends rest)
    have more := ih fun r hr => later r (List.mem_cons_of_mem _ hr)
    have comma (rest : List CodePoint) :
        d.Lexes true (44 :: rest) [.symbol .comma] false rest := lexes_mark plain rfl (by simp)
    have all := (comma _).trans (group.trans more).blank
    simpa [Grammar.continued] using all

theorem lexes_list (plain : d.disabled = []) {b : Bool} (rows : List α) (closer : Symbol)
    (first : ∀ row ∈ rows, Group d b (chars row) (tokens row))
    (later : ∀ row ∈ rows, Group d false (chars row) (tokens row))
    (mark : Scan.mark? closer = some (c, [])) (ends : c ∈ [93, 125])
    (operand : closer.expectsOperand = false) (rest : List CodePoint) :
    d.Lexes b (joined (rows.map chars) ++ c :: rest)
      (Grammar.separated (rows.map tokens) ++ [.symbol closer]) true rest := by
  have last (b : Bool) : d.Lexes b (c :: rest) [.symbol closer] true rest := by
    have read : d.Lexes b (c :: rest) [.symbol closer] (!closer.expectsOperand) rest :=
      lexes_mark plain mark (by simp)
    rwa [operand] at read
  cases rows with
  | nil => exact last b
  | cons row rows =>
    have group := first row List.mem_cons_self _ (boundary_behind (rows.map chars) ends rest)
    have more := lexes_behind plain rows (fun r hr => later r (List.mem_cons_of_mem _ hr)) ends
      (last true)
    rw [List.map_cons, List.map_cons, joined, intercalate_cons, Grammar.separated_cons,
      List.append_assoc, List.append_assoc]
    exact group.trans more

end

theorem Group.ofGives {b : Bool} {chars : List CodePoint} {token : Token}
    (h : ∀ rest, Scan.Boundary rest → Scan.Gives b (chars ++ rest) token rest)
    (unchanged : d.filter token = token) (more : token.isEof = false)
    (operand : token.expectsOperand = false) : Group d b chars [token] := by
  intro rest boundary
  have read := Dialect.Lexes.one (h rest boundary) unchanged more
  rwa [operand] at read

theorem group_minus (plain : d.disabled = []) (k : Nat) {token : Token}
    (h : Scan.wholeToken false k = token) (unchanged : d.filter token = token) (more : token.isEof = false)
    (operand : token.expectsOperand = false) :
    Group d true (45 :: Scan.wide (Text.ofNat k)) [.symbol .minus, token] := by
  intro rest boundary
  have digits : ∀ c ∈ (Scan.wide (Text.ofNat k) ++ rest).head?, c ≠ 61 ∧ c ≠ 62 := by
    obtain ⟨first, tail, chars, digit, -⟩ := Scan.wide_ofNat k
    rw [chars]
    intro c head
    cases head
    constructor <;> rintro rfl <;> cases digit
  have sign := Dialect.Lexes.one (Scan.gives_minus digits) (Dialect.filter_symbol plain .minus) rfl
  have number : Group d false (Scan.wide (Text.ofNat k)) [token] :=
    .ofGives (fun rest boundary => h ▸ Scan.gives_whole boundary k) unchanged more operand
  exact sign.trans (number rest boundary)

theorem group_entry (plain : d.disabled = []) (b : Bool) (key : List CodePoint)
    {chars : List CodePoint} {tokens : List Token} (h : Group d true chars tokens) :
    Group d b (entryChars key chars) (Grammar.entryTokens (Utf8.encodeAll key) tokens) := by
  intro rest boundary
  have name : d.Lexes b (Quoted.chars Scan.doubleQuote key ++ (58 :: 32 :: (chars ++ rest)))
      [.string (Utf8.encodeAll key)] true (58 :: 32 :: (chars ++ rest)) :=
    .one (Scan.gives_string key) rfl rfl
  have colon : d.Lexes true (58 :: 32 :: (chars ++ rest)) [.symbol .colon] true
      (32 :: (chars ++ rest)) := lexes_mark plain rfl (by simp)
  rw [entryChars, List.append_assoc]
  exact name.trans (colon.trans (h rest boundary).blank)

theorem lexes (plain : d.disabled = []) (h : Prints inMap v p) :
    Group d inMap p.chars p.tokens := by
  induction h with
  | unit inMap =>
    intro rest boundary
    have opened : d.Lexes inMap (40 :: 41 :: rest) [.symbol .leftParen] false (41 :: rest) :=
      lexes_mark plain rfl (by simp)
    have closed : d.Lexes false (41 :: rest) [.symbol .rightParen] true rest :=
      lexes_mark plain rfl (by simp)
    exact opened.trans closed
  | bool inMap b =>
    have operand : (Token.symbol (Scan.boolSymbol b)).expectsOperand = false := by cases b <;> rfl
    exact .ofGives (fun rest boundary => Scan.gives_bool boundary b)
      (Dialect.filter_symbol plain _) rfl operand
  | @natural inMap n h =>
    have token : Scan.wholeToken false n.val.natAbs = .integer n :=
      Scan.wholeToken_of_val (by rw [Scan.signed, if_neg Bool.false_ne_true]; omega)
    exact .ofGives (fun rest boundary => token ▸ Scan.gives_whole boundary _) rfl rfl rfl
  | @negative n h =>
    have token : Scan.wholeToken true n.val.natAbs = .integer n :=
      Scan.wholeToken_of_val (by rw [Scan.signed, if_pos rfl]; omega)
    exact .ofGives (fun rest boundary => token ▸ Scan.gives_negative boundary _) rfl rfl rfl
  | @opposite n m h opposite =>
    have token : Scan.wholeToken false n.val.natAbs = .integer m :=
      Scan.wholeToken_of_val (by rw [Scan.signed, if_neg Bool.false_ne_true]; omega)
    exact group_minus plain _ token rfl rfl rfl
  | @least n f h read =>
    have token : Scan.wholeToken false n.val.natAbs = .float f := by
      have none : Fixed.ofInt? .i64 (Scan.signed false n.val.natAbs) = none := by
        rw [h]
        decide
      rw [Scan.wholeToken_eq, none, read]
    exact group_minus plain _ token rfl rfl rfl
  | char inMap small => exact .ofGives (fun _ _ => Scan.gives_char _) rfl rfl rfl
  | string inMap small => exact .ofGives (fun _ _ => Scan.gives_string _) rfl rfl rfl
  | array inMap rows each ih =>
    intro rest _
    have opened (rest : List CodePoint) :
        d.Lexes inMap (91 :: rest) [.symbol .leftBracket] false rest :=
      lexes_mark plain rfl (by simp)
    have items := lexes_list plain rows .rightBracket ih ih rfl (by decide) rfl rest
    have all := (opened _).trans items
    simpa using all
  | map inMap rows small ordered each ih =>
    intro rest _
    have opened (rest : List CodePoint) :
        d.Lexes inMap (35 :: 123 :: rest) [.symbol .mapStart] true rest :=
      .one (Scan.gives_mapStart rest) (Dialect.filter_symbol plain _) rfl
    -- The first entry stands behind the brace and the others behind commas: a key is read alike.
    have entries := lexes_list plain rows .rightBrace
      (fun row own => group_entry plain true row.1 (ih row own))
      (fun row own => group_entry plain false row.1 (ih row own)) rfl (by decide) rfl rest
    have all := (opened _).trans entries
    simpa using all

/-! The value that is read back. -/

theorem spells (h : Prints inMap v p) : Grammar.Spells p.tokens p.back := by
  induction h with
  | unit => exact .unit
  | bool inMap b => cases b <;> exact .atom rfl
  | natural | negative | char | string => exact .atom rfl
  | @opposite n m h opposite =>
    refine .minusInteger ?_
    have back : -m.val = n.val := by omega
    rw [back, Fixed.ofInt?, dif_pos n.inside]
  | least h read => exact .minusFloat _
  | array inMap rows each ih =>
    have all := Grammar.Spells.array (rows.map fun row => (row.2.tokens, row.2.back)) ?_
    · rw [List.map_map, List.map_map] at all
      exact all
    · intro item member
      obtain ⟨row, own, rfl⟩ := List.mem_map.mp member
      exact ih row own
  | map inMap rows small ordered each ih =>
    have all := Grammar.Spells.map
      (rows.map fun row => (Utf8.encodeAll row.1, row.2.2.tokens, row.2.2.back)) ?_ ?_
    · rw [List.map_map, List.map_map, Dict.ofList_of_ordered] at all
      · exact all
      · exact List.pairwise_map.mpr ordered
    · intro entry member
      obtain ⟨row, own, rfl⟩ := List.mem_map.mp member
      exact ih row own
    · refine List.pairwise_map.mpr (ordered.imp ?_)
      intro a b before same
      change Utf8.encodeAll a.1 = Utf8.encodeAll b.1 at same
      rw [same] at before
      exact List.lt_irrefl _ before

/-! The comparison with the value itself. -/

theorem allEqual_of {α : Type} {eq : Value → Value → Except Halt Bool} (rows : List α)
    {left right : α → Value} {answer : α → Bool}
    (h : ∀ row ∈ rows, eq (left row) (right row) = .ok (answer row)) :
    allEqual eq (rows.map left) (rows.map right) = .ok (rows.all answer) := by
  induction rows with
  | nil => rfl
  | cons row rows ih =>
    have later := ih fun r hr => h r (List.mem_cons_of_mem _ hr)
    rw [List.map_cons, List.map_cons, allEqual, h row List.mem_cons_self, List.all_cons]
    cases answer row with
    | true => exact later
    | false => rfl

theorem entriesEqual_of {α : Type} {eq : Value → Value → Except Halt Bool} (rows : List α)
    (key : α → Text) {left right : α → Value} {answer : α → Bool}
    (h : ∀ row ∈ rows, eq (left row) (right row) = .ok (answer row)) :
    entriesEqual eq (rows.map fun row => (key row, left row))
      (rows.map fun row => (key row, right row)) = .ok (rows.all answer) := by
  induction rows with
  | nil => rfl
  | cons row rows ih =>
    have later := ih fun r hr => h r (List.mem_cons_of_mem _ hr)
    rw [List.map_cons, List.map_cons, entriesEqual, h row List.mem_cons_self, List.all_cons]
    simp only [ne_eq, not_true_eq_false, if_false]
    cases answer row with
    | true => exact later
    | false => rfl

theorem equal (h : Prints inMap v p) : Enough fun fuel =>
    ∀ s sides, equalAt s fuel sides p.back v = .ok (!v.altered inMap) := by
  have scalar {v w : Value} {answer : Bool}
      (h : ∀ fuel s sides, equalAt s (fuel + 1) sides w v = .ok answer) :
      Enough fun fuel => ∀ s sides, equalAt s fuel sides w v = .ok answer := .succ (.always h)
  have integer {inMap : Bool} {n : Integer} (other : inMap = true → n.val ≠ IntType.i64.least) :
      Enough fun fuel => ∀ s sides, equalAt s fuel sides (.i64 n) (.i64 n) =
        .ok (!(Value.i64 n).altered inMap) := by
    have kept : (Value.i64 n).altered inMap = false := by
      cases inMap with
      | false => rfl
      | true => simpa [altered] using other rfl
    exact scalar fun fuel s sides => by simp [equalAt, kept]
  have negative : IntType.i64.least < 0 := by decide
  induction h with
  | unit => exact scalar fun fuel s sides => rfl
  | bool inMap b => exact scalar fun fuel s sides => by simp [equalAt, altered]
  | natural inMap h => exact integer fun _ => by omega
  | negative h => exact integer fun none => by cases none
  | @opposite n m h opposite =>
    -- The opposite of the least integer is past the greatest one.
    have within := m.inside.2
    have past : IntType.i64.greatest = -IntType.i64.least - 1 := by decide
    exact integer fun _ => by omega
  | @least n f h read =>
    have changed : (Value.i64 n).altered true = true := by simp [altered, h]
    exact scalar fun fuel s sides => by
      rw [changed]
      rfl
  | char inMap small => exact scalar fun fuel s sides => by simp [equalAt, altered]
  | string inMap small => exact scalar fun fuel s sides => by simp [equalAt, altered]
  | array inMap rows each ih =>
    refine .succ ((Enough.all ih).imp fun fuel answers s sides => ?_)
    have all := allEqual_of rows fun row own => answers row own s sides.descend
    rw [equalAt, if_neg (by simp), all, altered, anyItemAltered_eq, List.any_map,
      List.not_any_eq_all_not]
    rfl
  | map inMap rows small ordered each ih =>
    refine .succ ((Enough.all ih).imp fun fuel answers s sides => ?_)
    have all := entriesEqual_of rows (fun row => Utf8.encodeAll row.1)
      fun row own => answers row own s sides.descend
    rw [equalAt, if_neg (by simp), all, altered, anyEntryAltered_eq, List.any_map,
      List.not_any_eq_all_not]
    rfl

end Prints

inductive Printable : Value → Prop where
  | unit : Printable .unit
  | bool (b : Bool) : Printable (.bool b)
  | integer (n : Integer) : Printable (.i64 n)
  | char {c : CodePoint} (small : c.toNat < 0x200000) : Printable (.char c)
  | string {t : Text} (legible : t.Legible) : Printable (.string t)
  | array {items : List Value} (each : ∀ v ∈ items, Printable v) : Printable (.array items)
  | map {entries : Dict Text Value} (ordered : entries.Ordered)
      (keys : ∀ entry ∈ entries, entry.1.Legible) (each : ∀ entry ∈ entries, Printable entry.2) :
      Printable (.map entries)

theorem exists_rows {α β : Type} {P : β → Prop} (g : β → α) (xs : List α)
    (h : ∀ x ∈ xs, ∃ row, g row = x ∧ P row) : ∃ rows : List β, xs = rows.map g ∧
      ∀ row ∈ rows, P row := by
  induction xs with
  | nil => exact ⟨[], rfl, by simp⟩
  | cons x xs ih =>
    obtain ⟨row, rfl, here⟩ := h x List.mem_cons_self
    obtain ⟨rows, rfl, each⟩ := ih fun x hx => h x (List.mem_cons_of_mem _ hx)
    exact ⟨row :: rows, rfl, List.forall_mem_cons.mpr ⟨here, each⟩⟩

theorem exists_prints_integer (n : Integer) (inMap : Bool) : ∃ p, Prints inMap (.i64 n) p := by
  by_cases negative : n.val < 0
  · cases inMap with
    | false => exact ⟨_, .negative negative⟩
    | true =>
      by_cases least : n.val = IntType.i64.least
      · have some : (Decimal.read? false (Text.ofNat n.val.natAbs)).isSome = true := by
          rw [least]
          decide +kernel
        obtain ⟨f, read⟩ := Option.isSome_iff_exists.mp some
        exact ⟨_, .least least read⟩
      · have holds : IntType.i64.Holds (-n.val) := by
          have above := n.inside.1
          have past : IntType.i64.greatest = -IntType.i64.least - 1 := by decide
          have below : IntType.i64.least < 0 := by decide
          exact ⟨by omega, by omega⟩
        exact ⟨_, .opposite (m := ⟨-n.val, holds⟩) negative rfl⟩
  · exact ⟨_, .natural inMap negative⟩

theorem Printable.prints {v : Value} (h : v.Printable) (inMap : Bool) : ∃ p, Prints inMap v p := by
  induction h generalizing inMap with
  | unit => exact ⟨_, .unit inMap⟩
  | bool b => exact ⟨_, .bool inMap b⟩
  | integer n => exact exists_prints_integer n inMap
  | char small => exact ⟨_, .char inMap small⟩
  | string legible =>
    obtain ⟨cs, small, rfl⟩ := legible
    exact ⟨_, .string inMap small⟩
  | @array items each ih =>
    have printed : ∀ v ∈ items, ∃ row : Value × Printout, row.1 = v ∧ Prints false row.1 row.2 := by
      intro v member
      obtain ⟨p, prints⟩ := ih v member false
      exact ⟨(v, p), rfl, prints⟩
    obtain ⟨rows, rfl, prints⟩ := exists_rows _ items printed
    exact ⟨_, .array inMap rows prints⟩
  | @map entries ordered keys each ih =>
    have printed : ∀ entry ∈ entries, ∃ row : List CodePoint × Value × Printout,
        (Utf8.encodeAll row.1, row.2.1) = entry ∧ (∀ c ∈ row.1, c.toNat < 0x200000) ∧
          Prints true row.2.1 row.2.2 := by
      intro entry member
      obtain ⟨cs, small, spelled⟩ := keys entry member
      obtain ⟨p, prints⟩ := ih entry member true
      exact ⟨(cs, entry.2, p), by rw [spelled], small, prints⟩
    obtain ⟨rows, rfl, both⟩ := exists_rows _ entries printed
    have keysOrdered : rows.Pairwise fun a b => Utf8.encodeAll a.1 < Utf8.encodeAll b.1 := by
      unfold Dict.Ordered at ordered
      rwa [List.pairwise_map] at ordered
    exact ⟨_, .map inMap rows (fun row own => (both row own).1) keysOrdered
      fun row own => (both row own).2⟩

end Value

end Scripting
