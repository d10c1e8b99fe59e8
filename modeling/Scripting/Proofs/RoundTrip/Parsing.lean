import Scripting.Proofs.RoundTrip.Literals
import Scripting.Proofs.RoundTrip.Taking

/-
Parsing the tokens of literals. The grammar takes exactly the tokens of a literal wherever
something stands behind them that ends an expression, and gives an expression with its value.
-/
namespace Scripting

theorem intercalate_cons {α : Type} (separator group : List α) (groups : List (List α)) :
    separator.intercalate (group :: groups) = group ++ groups.flatMap (separator ++ ·) := by
  induction groups generalizing group with
  | nil => simp
  | cons next more ih =>
    rw [List.intercalate_cons_cons, ih, List.flatMap_cons, List.append_assoc, List.append_assoc]

theorem mem_of_mem_intercalate {α : Type} {separator : List α} {groups : List (List α)} {a : α}
    (h : a ∈ separator.intercalate groups) : a ∈ separator ∨ ∃ group ∈ groups, a ∈ group := by
  cases groups with
  | nil => cases h
  | cons group groups =>
    rw [intercalate_cons, List.mem_append, List.mem_flatMap] at h
    rcases h with first | ⟨later, member, inside⟩
    · exact .inr ⟨group, List.mem_cons_self, first⟩
    · rcases List.mem_append.mp inside with between | inside
      · exact .inl between
      · exact .inr ⟨later, List.mem_cons_of_mem _ member, inside⟩

namespace Grammar

variable {α β : Type} {Q : α → Prop} {R : β → Prop} {used rest : List Token}
variable {settings : Settings} {rules : Rules}

theorem suffixes_stop (stops : Stops rest) (n : Nat) (e : Expr) :
    Takes (suffixes rules (n + 1) e) [] rest (· = e) := by
  have none (symbol : Symbol) (h : symbol ∉ [Symbol.comma, .rightBracket, .rightBrace]) :
      starts symbol rest = false := by
    obtain rfl | ⟨other, member, more, rfl⟩ := stops
    · rfl
    · refine decide_eq_false ?_
      rintro rfl
      exact h member
  refine (currentPos_takes _).peek fun pos _ => ?_
  refine (accept_other (none .leftBracket (by decide))).peek fun found ha => ?_
  subst ha
  refine (accept_other (none .period (by decide))).peek fun found ha => ?_
  subst ha
  exact .give rfl

theorem operand_takes (stops : Stops rest) {R : Expr → Prop}
    (h : Takes (primary settings rules) used rest R) :
    Takes (operand settings rules) used rest R := by
  refine h.last fun e he => ?_
  refine (remaining_takes _).peek fun n _ => ?_
  refine (suffixes_stop stops n e).imp ?_
  rintro _ rfl
  exact he

theorem binary_stop (stops : Stops rest) (n : Nat) (e : Expr) :
    Takes (binary settings rules (n + 1) 1 e) [] rest (· = e) := by
  have weak : (rest.headD .eof).precedence settings.operators = 0 := by
    obtain rfl | ⟨other, member, more, rfl⟩ := stops
    · rfl
    · simp only [List.mem_cons, List.not_mem_nil, or_false] at member
      rcases member with rfl | rfl | rfl <;> rfl
  refine (current_takes _).peek fun token ha => ?_
  subst ha
  simp only [List.nil_append, weak, true_or, if_true]
  exact .give rfl

def isSign : Token → Bool
  | .symbol s => [Symbol.unaryMinus, .minus, .unaryPlus, .plus, .bang].contains s
  | _ => false

theorem unary_of_primary (unlimited : settings.maxDepth = 0) (stops : Stops rest) {R : Expr → Prop}
    {first : Token} (unsigned : isSign first = false)
    (h : Takes (primary settings rules) (first :: used) rest R) :
    Takes (unary settings rules) (first :: used) rest R := by
  refine nested_takes unlimited ?_
  refine (currentPos_takes _).peek fun pos _ => ?_
  refine (current_takes _).peek fun token ha => ?_
  change token = first at ha
  subst ha
  split
  case h_6 => exact operand_takes stops h
  all_goals cases unsigned

theorem unary_minus (unlimited : settings.maxDepth = 0) {R : Expr → Prop}
    (h : Takes rules.unary used rest R) :
    Takes (unary settings rules) (.symbol .minus :: used) rest
      (fun e => ∃ inner pos, R inner ∧ e = negated pos inner) := by
  refine nested_takes unlimited ?_
  refine (currentPos_takes _).peek fun pos _ => ?_
  refine (current_takes _).peek fun token ha => ?_
  subst ha
  refine (advance_takes _ _).step fun _ _ => ?_
  exact h.last fun inner hinner => .give ⟨inner, pos, hinner, rfl⟩

theorem expression_of_unary (stops : Stops rest) {R : Expr → Prop}
    (h : Takes (unary settings rules) used rest R) :
    Takes (expression settings rules) used rest R := by
  refine h.last fun e he => ?_
  refine (remaining_takes _).peek fun n _ => ?_
  refine (binary_stop stops n e).imp ?_
  rintro _ rfl
  exact he

/-! Literals. -/

abbrev Denotes (v : Value) (e : Expr) : Prop := e.value? = some v

def atom? : Token → Option Value
  | .integer n => some (.i64 n)
  | .float f => some (.float f)
  | .char c => some (.char c)
  | .string t => some (.string t)
  | .symbol .kwTrue => some (.bool true)
  | .symbol .kwFalse => some (.bool false)
  | _ => none

theorem primary_atom {token : Token} {v : Value} (h : atom? token = some v) (rest : List Token) :
    Takes (primary settings rules) [token] rest (Denotes v) := by
  refine (currentPos_takes _).peek fun pos _ => ?_
  refine (current_takes _).peek fun _ ha => ?_
  subst ha
  unfold atom? at h
  split at h
  all_goals cases h
  all_goals exact (advance_takes _ _).step fun _ _ => .give rfl

theorem primary_unit (rest : List Token) :
    Takes (primary settings rules) [.symbol .leftParen, .symbol .rightParen] rest
      (Denotes .unit) := by
  refine (currentPos_takes _).peek fun pos _ => ?_
  refine (current_takes _).peek fun _ ha => ?_
  subst ha
  refine (advance_takes _ _).step fun _ _ => ?_
  refine (accept_takes _ _).step fun found ha => ?_
  subst ha
  exact .give rfl

def separated (groups : List (List Token)) : List Token := [Token.symbol .comma].intercalate groups

def entryTokens (key : Text) (tokens : List Token) : List Token :=
  .string key :: .symbol .colon :: tokens

inductive Spells : List Token → Value → Prop where
  | atom {token v} (h : atom? token = some v) : Spells [token] v
  | minusInteger {n m : Integer} (h : Fixed.ofInt? .i64 (-n.val) = some m) :
      Spells [.symbol .minus, .integer n] (.i64 m)
  | minusFloat (f : Float) : Spells [.symbol .minus, .float f] (.float (-f))
  | unit : Spells [.symbol .leftParen, .symbol .rightParen] .unit
  | array (items : List (List Token × Value)) (each : ∀ item ∈ items, Spells item.1 item.2) :
      Spells (.symbol .leftBracket :: (separated (items.map (·.1)) ++ [.symbol .rightBracket]))
        (.array (items.map (·.2)))
  | map (entries : List (Text × List Token × Value))
      (each : ∀ entry ∈ entries, Spells entry.2.1 entry.2.2)
      (distinct : entries.Pairwise fun a b => a.1 ≠ b.1) :
      Spells (.symbol .mapStart ::
          (separated (entries.map fun entry => entryTokens entry.1 entry.2.1) ++
            [.symbol .rightBrace]))
        (.map (Dict.ofList (entries.map fun entry => (entry.1, entry.2.2))))

theorem opens_atom {token : Token} {v : Value} (h : atom? token = some v) :
    opens token = true := by
  unfold atom? at h
  split at h
  all_goals first | rfl | cases h

theorem Spells.opens {tokens : List Token} {v : Value} (h : Spells tokens v) :
    ∃ first more, tokens = first :: more ∧ opens first = true := by
  cases h with
  | atom h => exact ⟨_, [], rfl, opens_atom h⟩
  | _ => exact ⟨_, _, rfl, rfl⟩

def continued (groups : List (List Token)) : List Token := groups.flatMap (.symbol .comma :: ·)

theorem separated_cons (group : List Token) (groups : List (List Token)) :
    separated (group :: groups) = group ++ continued groups := intercalate_cons _ group groups

theorem notEof_enclosed {opener closer : Symbol} {groups : List (List Token)}
    (each : ∀ group ∈ groups, ∀ token ∈ group, token.isEof = false) :
    ∀ token ∈ .symbol opener :: (separated groups ++ [.symbol closer]), token.isEof = false := by
  intro token member
  simp only [List.mem_cons, List.mem_append, List.not_mem_nil, or_false] at member
  rcases member with rfl | inside | rfl
  · rfl
  · obtain comma | ⟨group, member, inside⟩ := mem_of_mem_intercalate inside
    · rw [List.mem_singleton.mp comma]
      rfl
    · exact each group member token inside
  · rfl

theorem Spells.notEof {tokens : List Token} {v : Value} (h : Spells tokens v) :
    ∀ token ∈ tokens, token.isEof = false := by
  induction h with
  | atom h =>
    intro token member
    obtain rfl := List.mem_singleton.mp member
    exact isEof_of_opens (opens_atom h)
  | minusInteger h => simp [Token.isEof]
  | minusFloat f => simp [Token.isEof]
  | unit => simp [Token.isEof]
  | array items each ih =>
    refine notEof_enclosed fun group member => ?_
    obtain ⟨item, own, rfl⟩ := List.mem_map.mp member
    exact ih item own
  | map entries each distinct ih =>
    refine notEof_enclosed fun group member => ?_
    obtain ⟨entry, own, rfl⟩ := List.mem_map.mp member
    exact List.forall_mem_cons.mpr ⟨rfl, List.forall_mem_cons.mpr ⟨rfl, ih entry own⟩⟩

theorem length_lt_remaining (items : List α) (tokens : α → List Token) (closer : Token)
    (rest : List Token) :
    items.length < (separated (items.map tokens) ++ [closer] ++ rest).length + 1 := by
  have behind (items : List α) : items.length ≤ (continued (items.map tokens)).length := by
    induction items with
    | nil => simp
    | cons item items ih =>
      simp only [continued, List.map_cons, List.flatMap_cons, List.length_append,
        List.length_cons] at ih ⊢
      omega
  cases items with
  | nil => simp
  | cons item items =>
    have bound := behind items
    simp only [List.map_cons, separated_cons, List.length_append, List.length_cons]
    omega

theorem length_group_le {group : List Token} {groups : List (List Token)} (h : group ∈ groups) :
    group.length ≤ (separated groups).length := by
  cases groups with
  | nil => cases h
  | cons first groups =>
    rw [separated_cons, List.length_append]
    rcases List.mem_cons.mp h with rfl | later
    · omega
    · have inside : (.symbol .comma :: group).length ≤ (continued groups).length :=
        (List.sublist_flatten_of_mem (List.mem_map_of_mem later)).length_le
      rw [List.length_cons] at inside
      omega

theorem stops_continued {closer : Symbol} (h : closer ∈ [Symbol.rightBracket, .rightBrace])
    (groups : List (List Token)) (rest : List Token) :
    Stops (continued groups ++ .symbol closer :: rest) := by
  cases groups with
  | nil => exact .inr ⟨closer, List.mem_cons_of_mem _ h, rest, rfl⟩
  | cons next more => exact .inr ⟨.comma, by decide, _, rfl⟩

theorem separator_takes {closer : Symbol} (h : closer ∈ [Symbol.rightBracket, .rightBrace])
    (fault : ParseFault) (detail : Text) {groups : List (List Token)} {next : Parse β}
    (later : Takes next (separated groups ++ [.symbol closer]) rest R) :
    Takes (do
      if !(← accept .comma) then
        if !(← check closer) then failUnlessLexed fault detail
      next) (continued groups ++ [.symbol closer]) rest R := by
  cases groups with
  | nil =>
    have other : starts .comma (.symbol closer :: rest) = false := by
      refine decide_eq_false ?_
      rintro rfl
      simp at h
    refine (accept_other other).peek fun found ha => ?_
    subst ha
    refine (check_takes closer _).peek fun found ha => ?_
    have here : found = true := by rw [ha]; exact decide_eq_true rfl
    subst here
    exact later
  | cons group groups =>
    rw [separated_cons] at later
    refine (accept_takes .comma _).step fun found ha => ?_
    subst ha
    exact later

structure IsItem (p : Parse α) (group : List Token) (Q : α → Prop) : Prop where
  opens : ∃ first more, group = first :: more ∧ opens first = true
  takes : ∀ rest, Stops rest → Takes p group rest Q

theorem items_takes (unclosed unseparated : Text) (items : List (List Token × Value))
    (each : ∀ item ∈ items, IsItem rules.expression item.1 (Denotes item.2))
    {n : Nat} (enough : items.length < n) {found : List Expr} {before : List Value}
    (known : Expr.values? found.reverse = some before) (rest : List Token) :
    Takes (Grammar.items rules .rightBracket unclosed unseparated n found)
      (separated (items.map (·.1)) ++ [.symbol .rightBracket]) rest
      (fun es => Expr.values? es = some (before ++ items.map (·.2))) := by
  induction items generalizing n found before with
  | nil =>
    obtain ⟨n, rfl⟩ : ∃ k, n = k + 1 := ⟨n - 1, by simp at enough; omega⟩
    refine (accept_takes _ _).step fun closed ha => ?_
    subst ha
    exact .give (by rw [known, List.map_nil, List.append_nil])
  | cons item items ih =>
    obtain ⟨n, rfl⟩ : ∃ k, n = k + 1 := ⟨n - 1, by simp at enough; omega⟩
    obtain ⟨⟨first, group, spelled, opened⟩, takes⟩ := each item List.mem_cons_self
    rw [List.map_cons, separated_cons, List.append_assoc]
    -- Before an item the closing bracket and the end are looked for; an item starts with neither.
    have other : starts .rightBracket (item.1 ++ (continued (items.map (·.1)) ++
        [Token.symbol .rightBracket]) ++ rest) = false := by
      rw [spelled]
      exact starts_of_opens opened rfl _
    refine (accept_other other).peek fun closed ha => ?_
    subst ha
    refine (atEnd_takes _).peek fun ended ha => ?_
    have more : ended = false := by
      rw [ha, spelled]
      exact isEof_of_opens opened
    subst more
    refine (takes _ ?_).bind fun e he => ?_
    · rw [List.append_assoc]
      exact stops_continued (by decide) _ rest
    refine separator_takes (by decide) _ _ ?_
    -- The item joins those already found, and the loop goes on behind the comma.
    have known' : Expr.values? (e :: found).reverse = some (before ++ [item.2]) := by
      rw [List.reverse_cons]
      exact Expr.values?_append known (by simp [Expr.values?, he])
    refine (ih (fun i hi => each i (List.mem_cons_of_mem _ hi)) (by simp at enough; omega)
      known').imp fun es hes => ?_
    rw [hes, List.map_cons, List.append_assoc]
    rfl

theorem mapEntries_takes (entries : List (Text × List Token × Value))
    (each : ∀ entry ∈ entries, IsItem rules.expression entry.2.1 (Denotes entry.2.2))
    (distinct : entries.Pairwise fun a b => a.1 ≠ b.1)
    {n : Nat} (enough : entries.length < n) {found : List (Text × Expr)}
    {before : List (Text × Value)} (known : Expr.entryValues? found.reverse = some before)
    (fresh : ∀ entry ∈ entries, ∀ old ∈ found, old.1 ≠ entry.1) (rest : List Token) :
    Takes (mapEntries rules n found)
      (separated (entries.map fun entry => entryTokens entry.1 entry.2.1) ++
        [.symbol .rightBrace]) rest
      (fun es => Expr.entryValues? es =
        some (before ++ entries.map fun entry => (entry.1, entry.2.2))) := by
  induction entries generalizing n found before with
  | nil =>
    obtain ⟨n, rfl⟩ : ∃ k, n = k + 1 := ⟨n - 1, by simp at enough; omega⟩
    refine (accept_takes _ _).step fun closed ha => ?_
    subst ha
    exact .give (by rw [known, List.map_nil, List.append_nil])
  | cons entry entries ih =>
    obtain ⟨n, rfl⟩ : ∃ k, n = k + 1 := ⟨n - 1, by simp at enough; omega⟩
    obtain ⟨key, tokens, v⟩ := entry
    obtain ⟨apart, distinct'⟩ := List.pairwise_cons.mp distinct
    obtain ⟨-, takes⟩ := each _ List.mem_cons_self
    rw [List.map_cons, separated_cons, List.append_assoc]
    refine (accept_other rfl).peek fun closed ha => ?_
    subst ha
    refine (atEnd_takes _).peek fun ended ha => ?_
    subst ha
    refine Takes.peek (Q := (· = key)) ?_ fun name ha => ?_
    · refine (current_takes _).peek fun _ ha => ?_
      subst ha
      exact .give rfl
    subst ha
    refine (advance_takes _ _).step fun place _ => ?_
    -- The key is compared with those already found.
    have unused : (found.any fun entry => entry.1 == name) = false := by
      rw [List.any_eq_false]
      intro old member
      simpa using fresh _ List.mem_cons_self old member
    simp only [unused, Bool.false_eq_true, if_false]
    refine (expect_takes _ _ _).step fun _ _ => ?_
    refine (takes _ ?_).bind fun e he => ?_
    · rw [List.append_assoc]
      exact stops_continued (by decide) _ rest
    refine separator_takes (by decide) _ _ ?_
    have known' : Expr.entryValues? ((name, e) :: found).reverse =
        some (before ++ [(name, v)]) := by
      rw [List.reverse_cons]
      exact Expr.entryValues?_append known (by simp [Expr.entryValues?, Expr.entryValue?, he])
    have fresh' : ∀ entry ∈ entries, ∀ old ∈ (name, e) :: found, old.1 ≠ entry.1 := by
      intro entry member old oldMember
      rcases List.mem_cons.mp oldMember with rfl | oldMember
      · exact apart entry member
      · exact fresh entry (List.mem_cons_of_mem _ member) old oldMember
    refine (ih (fun i hi => each i (List.mem_cons_of_mem _ hi)) distinct'
      (by simp at enough; omega) known' fresh').imp fun es hes => ?_
    rw [hes, List.map_cons, List.append_assoc]
    rfl

theorem primary_array {items : List (List Token × Value)}
    (each : ∀ item ∈ items, IsItem rules.expression item.1 (Denotes item.2)) (rest : List Token) :
    Takes (primary settings rules)
      (.symbol .leftBracket :: (separated (items.map (·.1)) ++ [.symbol .rightBracket])) rest
      (Denotes (.array (items.map (·.2)))) := by
  refine (currentPos_takes _).peek fun _ _ => ?_
  refine (current_takes _).peek fun _ ha => ?_
  subst ha
  refine (advance_takes _ _).step fun (_, pos) _ => ?_
  refine (remaining_takes _).peek fun n count => ?_
  have enough : items.length < n + 1 := by
    rw [count]
    exact length_lt_remaining items _ _ rest
  refine (items_takes _ _ items each enough rfl rest).last fun es values => .give ?_
  simp [Denotes, Expr.value?, values]

theorem primary_map {entries : List (Text × List Token × Value)}
    (each : ∀ entry ∈ entries, IsItem rules.expression entry.2.1 (Denotes entry.2.2))
    (distinct : entries.Pairwise fun a b => a.1 ≠ b.1) (rest : List Token) :
    Takes (primary settings rules)
      (.symbol .mapStart :: (separated (entries.map fun entry => entryTokens entry.1 entry.2.1) ++
        [.symbol .rightBrace])) rest
      (Denotes (.map (Dict.ofList (entries.map fun entry => (entry.1, entry.2.2))))) := by
  refine (currentPos_takes _).peek fun _ _ => ?_
  refine (current_takes _).peek fun _ ha => ?_
  subst ha
  refine (advance_takes _ _).step fun (_, pos) _ => ?_
  refine (remaining_takes _).peek fun n count => ?_
  have enough : entries.length < n + 1 := by
    rw [count]
    exact length_lt_remaining entries _ _ rest
  refine (mapEntries_takes entries each distinct enough rfl (by simp) rest).last
    fun es values => .give ?_
  simp [Denotes, Expr.value?, values]

theorem denotes_negated_int {n m : Integer} (h : Fixed.ofInt? .i64 (-n.val) = some m) {e : Expr}
    (he : Denotes (.i64 n) e) (pos : Position) : Denotes (.i64 m) (negated pos e) := by
  cases e with
  | int intPos k =>
    cases he
    simp [Denotes, negated, h, Expr.value?]
  | array pos items => simp [Denotes, Expr.value?] at he
  | map pos entries => simp [Denotes, Expr.value?] at he
  | _ => cases he

theorem denotes_negated_float {f : Float} {e : Expr} (he : Denotes (.float f) e) (pos : Position) :
    Denotes (.float (-f)) (negated pos e) := by
  cases e with
  | float floatPos g =>
    cases he
    rfl
  | array pos items => simp [Denotes, Expr.value?] at he
  | map pos entries => simp [Denotes, Expr.value?] at he
  | _ => cases he

theorem isSign_atom {token : Token} {v : Value} (h : atom? token = some v) :
    isSign token = false := by
  unfold atom? at h
  split at h
  all_goals first | rfl | cases h

theorem unaryAt_atom (unlimited : settings.maxDepth = 0) (stops : Stops rest) (token : Token)
    {v : Value} (h : atom? token = some v) (n : Nat) :
    Takes (unaryAt settings (n + 1)) [token] rest (Denotes v) :=
  unary_of_primary unlimited stops (isSign_atom h) (primary_atom h rest)

theorem expressionAt_takes (unlimited : settings.maxDepth = 0) {tokens : List Token} {v : Value}
    (h : Spells tokens v) {n : Nat} (enough : tokens.length ≤ n) (stops : Stops rest) :
    Takes (expressionAt settings n) tokens rest (Denotes v) := by
  induction h generalizing n rest with
  | atom h =>
    obtain ⟨n, rfl⟩ : ∃ k, n = k + 1 := ⟨n - 1, by simp at enough; omega⟩
    exact expression_of_unary stops (unaryAt_atom unlimited stops _ h n)
  | @minusInteger k m h =>
    obtain ⟨n, rfl⟩ : ∃ k, n = k + 2 := ⟨n - 2, by simp at enough; omega⟩
    have operand := unaryAt_atom unlimited stops (.integer k) rfl n
    refine expression_of_unary stops ((unary_minus unlimited operand).imp ?_)
    rintro _ ⟨inner, pos, known, rfl⟩
    exact denotes_negated_int h known pos
  | minusFloat f =>
    obtain ⟨n, rfl⟩ : ∃ k, n = k + 2 := ⟨n - 2, by simp at enough; omega⟩
    have operand := unaryAt_atom unlimited stops (.float f) rfl n
    refine expression_of_unary stops ((unary_minus unlimited operand).imp ?_)
    rintro _ ⟨inner, pos, known, rfl⟩
    exact denotes_negated_float known pos
  | unit =>
    obtain ⟨n, rfl⟩ : ∃ k, n = k + 1 := ⟨n - 1, by simp at enough; omega⟩
    exact expression_of_unary stops (unary_of_primary unlimited stops rfl (primary_unit rest))
  | array items each ih =>
    obtain ⟨n, rfl⟩ : ∃ k, n = k + 1 := ⟨n - 1, by simp at enough; omega⟩
    refine expression_of_unary stops (unary_of_primary unlimited stops rfl
      (primary_array (fun item member => ⟨(each item member).opens, fun rest stops => ?_⟩) rest))
    have shorter := length_group_le (List.mem_map_of_mem (f := fun i => i.1) member)
    simp only [List.length_cons, List.length_append] at enough
    exact ih item member (by omega) stops
  | map entries each distinct ih =>
    obtain ⟨n, rfl⟩ : ∃ k, n = k + 1 := ⟨n - 1, by simp at enough; omega⟩
    refine expression_of_unary stops (unary_of_primary unlimited stops rfl
      (primary_map (fun entry member => ⟨(each entry member).opens, fun rest stops => ?_⟩)
        distinct rest))
    have shorter := length_group_le
      (List.mem_map_of_mem (f := fun e => entryTokens e.1 e.2.1) member)
    simp only [entryTokens, List.length_cons, List.length_append] at enough shorter
    exact ih entry member (by omega) stops

/-! Whole scripts. -/

theorem expressionStatement_takes (unlimited : settings.maxDepth = 0) {tokens : List Token}
    {v : Value} (h : Spells tokens v) {n : Nat} (enough : tokens.length ≤ n + 1) :
    Takes (expressionStatement settings (rulesAt settings n)) tokens []
      (fun stmt => ∃ pos e, Denotes v e ∧ stmt = .expr pos e) := by
  refine (currentPos_takes _).peek fun pos _ => ?_
  refine (expressionAt_takes unlimited h (n := n + 1) enough (.inl rfl)).last fun e he => ?_
  refine (current_takes _).peek fun token ha => ?_
  subst ha
  exact .give ⟨pos, e, he, rfl⟩

theorem statement_of_opens {first : Token} (opened : opens first = true) {R : Stmt → Prop}
    (h : Takes (expressionStatement settings rules) (first :: used) rest R) (isGlobal : Bool) :
    Takes (statement settings rules isGlobal) (first :: used) rest
      (fun stmt => ∃ s, R s ∧ stmt = some s) := by
  have wrapped : Takes (some <$> expressionStatement settings rules) (first :: used) rest
      (fun stmt => ∃ s, R s ∧ stmt = some s) := h.map fun s hs => ⟨s, hs, rfl⟩
  refine (currentPos_takes _).peek fun pos _ => ?_
  refine (current_takes _).peek fun token ha => ?_
  change token = first at ha
  subst ha
  cases token with
  | symbol symbol =>
    cases symbol
    all_goals first | exact wrapped | cases opened
  | integer | float | char | string => exact wrapped
  | _ => cases opened

theorem statementEnd_takes (stmt : Option Stmt) :
    Takes (statementEnd stmt none) [] [] (· = true) := by
  have closing : Takes (closed none) [] [] (· = true) := by
    refine (atEnd_takes _).peek fun ended ha => ?_
    subst ha
    exact .give rfl
  refine closing.peek fun ended ha => ?_
  subst ha
  exact .give rfl

theorem topStatements_takes (unlimited : settings.maxDepth = 0) {tokens : List Token} {v : Value}
    (h : Spells tokens v) {n : Nat} (enough : tokens.length ≤ n + 1) (k : Nat) :
    Takes (topStatements settings (rulesAt settings n) (k + 1) []) tokens []
      (fun stmts => ∃ pos e, Denotes v e ∧ stmts = [.expr pos e]) := by
  have whole := expressionStatement_takes unlimited h enough
  obtain ⟨first, more, rfl, opened⟩ := h.opens
  refine (atEnd_takes _).peek fun ended ha => ?_
  have going : ended = false := by rw [ha]; exact isEof_of_opens opened
  subst going
  refine (statement_of_opens opened whole true).last fun stmt hstmt => ?_
  obtain ⟨_, ⟨pos, e, he, rfl⟩, rfl⟩ := hstmt
  refine (statementEnd_takes _).peek fun ended ha => ?_
  subst ha
  exact .give ⟨pos, e, he, rfl⟩

theorem parse_literal (unlimited : settings.maxDepth = 0) {tokens : List Token} {v : Value}
    (h : Spells tokens v) {placed : List PlacedToken} (names : placed.map Prod.fst = tokens)
    (endPos : Position) (nextClosure : Nat) :
    ∃ pos e, Denotes v e ∧ parse settings false (placed ++ [(.eof, endPos)]) nextClosure =
      (.ok ⟨[.expr pos e], []⟩, nextClosure) := by
  have kept : (placed ++ [(Token.eof, endPos)]).takeWhile (!·.1.isEof) = placed ++ [] := by
    rw [List.takeWhile_append_of_pos]
    · rfl
    · intro token member
      have inside : token.1 ∈ tokens := by
        rw [← names]
        exact List.mem_map_of_mem member
      simp [h.notEof token.1 inside]
  let start := State.start (placed ++ [(Token.eof, endPos)]) nextClosure
  have begun : { start with rest := placed ++ [] } = start := by
    rw [← kept]
    rfl
  have enough : tokens.length ≤ nestingBound start.rest.length + 1 := by
    have count : start.rest.length = tokens.length := by
      rw [← begun, ← names]
      simp
    rw [nestingBound, count]
    omega
  obtain ⟨_, ran, pos, e, he, rfl⟩ := topStatements_takes unlimited h enough start.rest.length
    start placed [] names rfl
  rw [begun] at ran
  have counted : remaining start = .ok start.rest.length start := rfl
  refine ⟨pos, e, he, ?_⟩
  have whole : script settings start = .ok ⟨[.expr pos e], []⟩ { start with rest := [] } := by
    unfold script
    rw [bind_of_ok counted, bind_of_ok ran]
    rfl
  unfold parse
  simp only [Bool.false_eq_true, if_false]
  rw [show State.start (placed ++ [(Token.eof, endPos)]) nextClosure = start from rfl, whole]
  rfl

end Grammar

end Scripting
