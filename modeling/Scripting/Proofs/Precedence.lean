import Scripting.Grammar
import Scripting.Proofs.Running

/-
Operands with binary operators between them. Of all the trees that read as such a sequence, only one
lets operators bind by their precedence and group to the left where it is equal, and this is the tree
that the grammar makes.
-/
namespace Scripting.Grammar

/-- Tokens that are read as an operand: what they are read as, and the state of the parse afterwards,
whatever tokens come then. -/
structure Operand where
  tokens : List PlacedToken
  expr : Expr
  after : State

abbrev Chain := List (PlacedToken × Operand)

namespace Chain

def tokens : Chain → List PlacedToken
  | [] => []
  | (op, x) :: more => op :: (x.tokens ++ tokens more)

def after (s : State) : Chain → State
  | [] => s
  | (_, x) :: more => after x.after more

/-- Every operand is read as what it is, by `p`, in the state that the one before it leaves. -/
def Read (p : Parse Expr) (later : List PlacedToken) : State → Chain → Prop
  | _, [] => True
  | s, (_, x) :: more =>
    p { s with rest := x.tokens ++ (tokens more ++ later) } =
      .ok x.expr { x.after with rest := tokens more ++ later } ∧ Read p later x.after more

theorem length_le (chain : Chain) : List.length chain ≤ chain.tokens.length := by
  induction chain with
  | nil => exact Nat.le_refl 0
  | cons e more ih =>
    simp only [tokens, List.length_cons, List.length_append]
    omega

theorem after_append (s : State) (now more : Chain) : after s (now ++ more) = after (after s now) more := by
  induction now generalizing s with
  | nil => rfl
  | cons e now ih => exact ih _

theorem Read.later {p : Parse Expr} {later : List PlacedToken} {s : State} {now more : Chain}
    (h : Read p later s (now ++ more)) : Read p later (after s now) more := by
  induction now generalizing s with
  | nil => exact h
  | cons e now ih => exact ih h.2

end Chain

inductive Grouping where
  | operand (x : Operand)
  | operation (left : Grouping) (op : PlacedToken) (right : Grouping)

namespace Grouping

/-- A tree is read from the left to the right: its first operand, and then the other ones. -/
def first : Grouping → Operand
  | operand x => x
  | operation left _ _ => left.first

def chain : Grouping → Chain
  | operand _ => []
  | operation left op right => left.chain ++ (op, right.first) :: right.chain

def expr : Grouping → Expr
  | operand x => x.expr
  | operation left (.symbol .and, pos) right => .logical pos true left.expr right.expr
  | operation left (.symbol .or, pos) right => .logical pos false left.expr right.expr
  | operation left (.symbol .kwIn, pos) right => .member pos left.expr right.expr
  | operation left (op, pos) right => .call pos op.text [] [left.expr, right.expr] true

theorem expr_operation (left : Grouping) (op : PlacedToken) (right : Grouping) :
    (operation left op right).expr = combine op.1 op.2 left.expr right.expr := by
  obtain ⟨token, pos⟩ := op
  cases token with
  | symbol s => cases s <;> rfl
  | _ => rfl

variable (operators : OperatorTable)

def Binds (least : Nat) : Grouping → Prop
  | operand _ => True
  | operation _ op _ => least ≤ op.1.precedence operators

/-- An operator of the left part binds at least as tightly as the operator between the parts, one of
the right part more tightly. -/
def Grouped : Grouping → Prop
  | operand _ => True
  | operation left op right => left.Grouped ∧ right.Grouped ∧
      left.Binds operators (op.1.precedence operators) ∧
      right.Binds operators (op.1.precedence operators + 1)

structure Groups (x : Operand) (chain : Chain) (tree : Grouping) : Prop where
  first : tree.first = x
  chain : tree.chain = chain
  grouped : tree.Grouped operators

variable {operators}

/-- No operator of a grouped tree binds less tightly than the last one. -/
theorem Grouped.chain_binds {t : Grouping} (grouped : t.Grouped operators) {least : Nat}
    (binds : t.Binds operators least) : ∀ e ∈ t.chain, least ≤ e.1.1.precedence operators := by
  induction t generalizing least with
  | operand x => intro e he; cases he
  | operation left op right ihl ihr =>
    obtain ⟨groupedL, groupedR, bindsL, bindsR⟩ := grouped
    have root : least ≤ op.1.precedence operators := binds
    intro e he
    simp only [chain, List.mem_append, List.mem_cons] at he
    obtain here | rfl | here := he
    · exact Nat.le_trans root (ihl groupedL bindsL e here)
    · exact root
    · have tighter := ihr groupedR bindsR e here
      omega

/-- In a sequence the last operator of a grouped tree is the last one of those that bind least: any
operator before it binds as tightly, and any after it more tightly, so two trees agree on it. -/
theorem Grouped.unique {t u : Grouping} (ht : t.Grouped operators) (hu : u.Grouped operators)
    (first : t.first = u.first) (chain : t.chain = u.chain) : t = u := by
  induction t generalizing u with
  | operand x =>
    cases u with
    | operand y => exact congrArg operand first
    | operation left op right => simp [Grouping.chain] at chain
  | operation left op right ihl ihr =>
    cases u with
    | operand y => simp [Grouping.chain] at chain
    | operation left' op' right' =>
      obtain ⟨groupedL, groupedR, bindsL, bindsR⟩ := ht
      obtain ⟨groupedL', groupedR', bindsL', bindsR'⟩ := hu
      simp only [Grouping.chain] at chain
      obtain ⟨between, before, behind⟩ | ⟨between, before, behind⟩ := List.append_eq_append_iff.mp chain
      · cases between with
        | nil =>
          simp only [List.nil_append, List.cons.injEq, Prod.mk.injEq] at behind
          obtain ⟨⟨rfl, firstR⟩, chainR⟩ := behind
          rw [ihl groupedL groupedL' first (by simpa using before.symm),
            ihr groupedR groupedR' firstR chainR]
        | cons e between =>
          -- The last operator of the first tree stands to the left of the other one's.
          simp only [List.cons_append, List.cons.injEq] at behind
          obtain ⟨rfl, behind⟩ := behind
          have le := groupedL'.chain_binds bindsL' (op, right.first) (by simp [before])
          have lt := groupedR.chain_binds bindsR (op', right'.first) (by simp [behind])
          exact absurd le (Nat.not_le_of_lt lt)
      · cases between with
        | nil =>
          simp only [List.nil_append, List.cons.injEq, Prod.mk.injEq] at behind
          obtain ⟨⟨rfl, firstR⟩, chainR⟩ := behind
          rw [ihl groupedL groupedL' first (by simpa using before),
            ihr groupedR groupedR' firstR.symm chainR.symm]
        | cons e between =>
          simp only [List.cons_append, List.cons.injEq] at behind
          obtain ⟨rfl, behind⟩ := behind
          have le := groupedL.chain_binds bindsL (op', right'.first) (by simp [before])
          have lt := groupedR'.chain_binds bindsR' (op, right.first) (by simp [behind])
          exact absurd le (Nat.not_le_of_lt lt)

end Grouping

/-! The loop of the grammar. -/

section Loop

variable (settings : Settings) (rules : Rules)

def IsBinary (op : Token) : Prop := op.precedence settings.operators ≠ 0 ∧ isPeriod op = false

variable {settings}

theorem isPeriod_of_precedence {token : Token} (none : token.precedence settings.operators = 0) :
    isPeriod token = false := by
  cases token with
  | symbol s => cases s <;> first | rfl | cases none
  | _ => rfl

/-- Only assignments and points bind to the right. -/
theorem IsBinary.bindsLeft {op : Token} (h : IsBinary settings op) : op.bindsRight = false := by
  obtain ⟨some, point⟩ := h
  cases op with
  | symbol s => cases s <;> first | rfl | exact absurd rfl some | cases point
  | _ => rfl

def Ends (settings : Settings) (later : List PlacedToken) : Prop :=
  ∀ e ∈ later.head?, e.1.precedence settings.operators = 0

def Chain.next (settings : Settings) : Chain → Nat
  | [] => 0
  | (op, _) :: _ => op.1.precedence settings.operators

theorem next_of_ends {later : List PlacedToken} (ends : Ends settings later) {chain : Chain}
    (ops : ∀ e ∈ chain, IsBinary settings e.1.1) (s : State) :
    let token := State.current { s with rest := chain.tokens ++ later } |>.1
    token.precedence settings.operators = chain.next settings ∧ isPeriod token = false := by
  cases chain with
  | nil =>
    cases later with
    | nil => exact ⟨rfl, rfl⟩
    | cons e later =>
      have none := ends e rfl
      exact ⟨none, isPeriod_of_precedence none⟩
  | cons e more => exact ⟨rfl, (ops e List.mem_cons_self).2⟩

variable {rules} {n least : Nat} {left right : Expr} {s t : State}

theorem binary_stops
    (last : s.current.1.precedence settings.operators < least) :
    binary settings rules (n + 1) least left s = .ok left s := by
  unfold binary
  rw [bind_of_ok (current_ok s)]
  exact congrFun (if_pos (Or.inr (Or.inl last))) s

theorem binary_goes (n : Nat) (left : Expr) {op : PlacedToken} (here : s.current = op) (binary_op : IsBinary settings op.1)
    (least_le : least ≤ op.1.precedence settings.operators)
    (operand : rules.unary { s with rest := s.rest.tail } = .ok right t)
    (follows : isPeriod t.current.1 = false) :
    binary settings rules (n + 1) least left s =
      if op.1.precedence settings.operators < t.current.1.precedence settings.operators then
        (binary settings rules n (op.1.precedence settings.operators + 1) right >>= fun right =>
          binary settings rules n least (combine op.1 op.2 left right)) t
      else binary settings rules n least (combine op.1 op.2 left right) t := by
  subst here
  have goes : ¬ (s.current.1.precedence settings.operators = 0 ∨
      s.current.1.precedence settings.operators < least ∨ isPeriod s.current.1 = true) := by
    rintro (none | less | point)
    · exact binary_op.1 none
    · omega
    · rw [binary_op.2] at point
      cases point
  rw [binary, bind_of_ok (current_ok s)]
  simp only [if_neg goes]
  rw [bind_of_ok (show advance s = .ok s.current { s with rest := s.rest.tail } from rfl),
    bind_of_ok operand, bind_of_ok (current_ok t)]
  simp only [follows, binary_op.bindsLeft, Bool.false_eq_true, and_false, if_false]
  split <;> rfl

/-- From a tree, operators that bind at least this tightly are taken with their operands, up to one
that does not, and what they make is grouped. -/
def Continues (settings : Settings) (later : List PlacedToken) (least : Nat) (tree : Grouping) (s : State)
    (chain : Chain) (out : EStateM.Result Stop State Expr) : Prop :=
  ∃ (made : Grouping) (now more : Chain), chain = now ++ more ∧ more.next settings < least ∧
    made.Groups settings.operators tree.first (tree.chain ++ now) ∧ made.Binds settings.operators least ∧
    out = .ok made.expr { now.after s with rest := more.tokens ++ later }

variable {later : List PlacedToken} {tree right : Grouping} {chain more : Chain}
  {out : EStateM.Result Stop State Expr}

theorem Continues.operation {op : PlacedToken} {x : Operand} (first : right.first = x)
    (h : Continues settings later least (.operation tree op right) (right.chain.after x.after) more out) :
    Continues settings later least tree s ((op, x) :: (right.chain ++ more)) out := by
  obtain ⟨made, now, rest, rfl, last, groups, binds, ran⟩ := h
  refine ⟨made, (op, x) :: (right.chain ++ now), rest, by simp, last, ⟨groups.first, ?_, groups.grouped⟩,
    binds, ?_⟩
  · rw [groups.chain, Grouping.chain, first, List.append_assoc, List.cons_append]
  · rw [ran, Chain.after, Chain.after_append]

/-- The loop groups. Its right operands come from the same loop with the next level as the least one,
so that an operator of the same level is left to the loop itself. -/
theorem binary_groups (positive : 0 < least) (ends : Ends settings later)
    (grouped : tree.Grouped settings.operators) (binds : tree.Binds settings.operators least)
    (ready : least ≤ chain.next settings → tree.Binds settings.operators (chain.next settings))
    (ops : ∀ e ∈ chain, IsBinary settings e.1.1) (read : chain.Read rules.unary later s)
    (enough : chain.length < n) :
    Continues settings later least tree s chain
      (binary settings rules n least tree.expr { s with rest := chain.tokens ++ later }) := by
  induction n generalizing least tree chain s with
  | zero => omega
  | succ n ih =>
    obtain ⟨here, -⟩ := next_of_ends ends ops s
    by_cases stop : chain.next settings < least
    · refine ⟨tree, [], chain, rfl, stop, ⟨rfl, (List.append_nil _).symm, grouped⟩, binds, ?_⟩
      exact binary_stops (by rw [here]; exact stop)
    · cases chain with
      | nil => exact absurd positive stop
      | cons e more =>
        obtain ⟨op, x⟩ := e
        obtain ⟨operand, read⟩ := read
        have least_le : least ≤ op.1.precedence settings.operators := Nat.le_of_not_lt stop
        have ops' := fun e he => ops e (List.mem_cons_of_mem _ he)
        have enough' : List.length more < n := Nat.lt_of_succ_lt_succ enough
        obtain ⟨next, follows⟩ := next_of_ends ends ops' x.after
        have goes := binary_goes n tree.expr
          (s := { s with rest := Chain.tokens ((op, x) :: more) ++ later })
          (t := { x.after with rest := Chain.tokens more ++ later })
          (show _ = op from rfl)
          (ops _ List.mem_cons_self) least_le
          (by simpa [Chain.tokens] using operand) follows
        -- Once the right operand is complete, the loop goes on from the operation.
        have goOn : ∀ (right : Grouping) (rest : Chain), more = right.chain ++ rest → right.first = x →
            right.Grouped settings.operators →
            right.Binds settings.operators (op.1.precedence settings.operators + 1) →
            rest.next settings ≤ op.1.precedence settings.operators →
            Continues settings later least tree s ((op, x) :: more)
              (binary settings rules n least (combine op.1 op.2 tree.expr right.expr)
                { right.chain.after x.after with rest := rest.tokens ++ later }) := by
          rintro right rest rfl first groupedR bindsR le
          rw [← Grouping.expr_operation]
          exact .operation first (ih positive ⟨grouped, groupedR, ready least_le, bindsR⟩ least_le
            (fun _ => le) (fun e he => ops' e (List.mem_append_right _ he)) read.later
            (Nat.lt_of_le_of_lt (by simp) enough'))
        by_cases tighter : op.1.precedence settings.operators < Chain.next settings more
        · obtain ⟨right, now, rest, split, last, groups, bindsR, ran⟩ :=
            ih (Nat.succ_pos (op.1.precedence settings.operators))
              (show Grouping.Grouped _ (.operand x) from trivial) trivial (fun _ => trivial) ops' read
              enough'
          obtain rfl : right.chain = now := groups.chain
          have continued := goOn right rest split groups.first groups.grouped bindsR
            (Nat.le_of_lt_succ last)
          rw [goes, next, if_pos tighter]
          exact (congrArg _ (bind_of_ok ran _)).mpr continued
        · have continued := goOn (.operand x) more rfl rfl trivial trivial (Nat.le_of_not_lt tighter)
          rw [goes, next, if_neg tighter]
          exact continued

end Loop

/-- Operands with binary operators between them, before a token that is none, are read as the only tree
that reads as this sequence and in which operators bind by their precedence, and group to the left where
it is equal. -/
theorem expression_groups (settings : Settings) (n : Nat) (s : State) (x : Operand) (chain : Chain)
    (later : List PlacedToken)
    (operand : unaryAt settings (n + 1) { s with rest := x.tokens ++ (chain.tokens ++ later) } =
      .ok x.expr { x.after with rest := chain.tokens ++ later })
    (operands : chain.Read (unaryAt settings n) later x.after)
    (ops : ∀ e ∈ chain, IsBinary settings e.1.1) (ends : Ends settings later) :
    ∃ tree : Grouping, tree.Groups settings.operators x chain ∧
      (∀ other : Grouping, other.Groups settings.operators x chain → other = tree) ∧
      expressionAt settings (n + 1) { s with rest := x.tokens ++ (chain.tokens ++ later) } =
        .ok tree.expr { chain.after x.after with rest := later } := by
  have enough : chain.length < (chain.tokens ++ later).length + 1 := by
    rw [List.length_append]
    have := chain.length_le
    omega
  have loop : Continues settings later 1 (.operand x) x.after chain
      (binary settings (rulesAt settings n) ((chain.tokens ++ later).length + 1) 1 x.expr
        { x.after with rest := chain.tokens ++ later }) :=
    binary_groups Nat.one_pos ends (show Grouping.Grouped _ (.operand x) from trivial) trivial
      (fun _ => trivial) ops operands enough
  obtain ⟨tree, now, more, split, last, groups, -, ran⟩ := loop
  obtain rfl : more = [] := by
    cases more with
    | nil => rfl
    | cons e more =>
      have some := (ops e (by rw [split]; simp)).1
      have none : e.1.1.precedence settings.operators < 1 := last
      omega
  obtain rfl : chain = now := split.trans (List.append_nil now)
  refine ⟨tree, groups, fun other same => ?_, ?_⟩
  · exact same.grouped.unique groups.grouped (same.first.trans groups.first.symm)
      (same.chain.trans groups.chain.symm)
  · change (unaryAt settings (n + 1) >>= fun left => do
      binary settings (rulesAt settings n) ((← remaining) + 1) 1 left) _ = _
    rw [bind_of_ok operand, bind_of_ok (remaining_ok _)]
    exact ran

def letterOperand (name : Text) (column : Nat) (captured : List Text) : Operand where
  tokens := [(.identifier name, ⟨1, column⟩)]
  expr := .var ⟨1, column⟩ name []
  after := { rest := [], endPos := ⟨1, 9⟩, body := { captured }, nextClosure := 0 }

/-- In `a-b-c/d` the division comes first, and then the subtractions from the left. -/
theorem expression_groups_letters :
    let a := letterOperand (Text.lit "a") 1 [Text.lit "a"]
    let b := letterOperand (Text.lit "b") 3 [Text.lit "a", Text.lit "b"]
    let c := letterOperand (Text.lit "c") 5 [Text.lit "a", Text.lit "b", Text.lit "c"]
    let d := letterOperand (Text.lit "d") 7
      [Text.lit "a", Text.lit "b", Text.lit "c", Text.lit "d"]
    let minus : PlacedToken := (.symbol .minus, ⟨1, 2⟩)
    let minus' : PlacedToken := (.symbol .minus, ⟨1, 4⟩)
    let slash : PlacedToken := (.symbol .divide, ⟨1, 6⟩)
    let later : List PlacedToken := [(.symbol .semicolon, ⟨1, 8⟩)]
    let chain : Chain := [(minus, b), (minus', c), (slash, d)]
    expressionAt {} 2 { rest := a.tokens ++ (chain.tokens ++ later), endPos := ⟨1, 9⟩, nextClosure := 0 } =
      .ok (Grouping.operation (.operation (.operand a) minus (.operand b)) minus'
        (.operation (.operand c) slash (.operand d))).expr { d.after with rest := later } := by
  intro a b c d minus minus' slash later chain
  have operators : ∀ e ∈ chain, IsBinary {} e.1.1 := by
    simp [chain, IsBinary, minus, minus', slash, isPeriod, Token.precedence, Symbol.precedence]
  have ends : Ends {} later := by
    rintro e he
    cases he
    rfl
  obtain ⟨tree, -, only, ran⟩ := expression_groups {} 1
    { rest := [], endPos := ⟨1, 9⟩, nextClosure := 0 } a chain later rfl ⟨rfl, rfl, rfl, trivial⟩
    operators ends
  have grouped : Grouping.Groups [] a chain (.operation (.operation (.operand a) minus (.operand b)) minus'
      (.operation (.operand c) slash (.operand d))) := by
    refine ⟨rfl, rfl, ?_⟩
    simp [Grouping.Grouped, Grouping.Binds, minus, minus', slash, Token.precedence, Symbol.precedence]
  rw [only _ grouped]
  exact ran

end Scripting.Grammar
