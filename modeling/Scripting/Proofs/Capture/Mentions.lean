import Mathlib.Data.List.Nodup
import Scripting.Grammar

/-
What code says about variables, in the order in which it says it. Declarations stay visible up to
the end of the block they stand in; seen from outside a block, they are gone, and so are the uses of
what they declared.
-/
namespace Scripting

inductive Mention where
  /-- A variable is read, written, captured or exported. -/
  | name (x : Text)
  /-- From here on the name stands for a new variable. -/
  | declared (x : Text)
  /-- A closure stands here. -/
  | closure (pos : Position) (function : Text) (captured : List Text)
  deriving DecidableEq

/-- Mentions as seen from outside a block in which the names of `inside` are declared already. -/
def Mention.enclose : List Text → List Mention → List Mention
  | _, [] => []
  | inside, .name x :: rest =>
    if x ∈ inside then enclose inside rest else .name x :: enclose inside rest
  | inside, .declared x :: rest => enclose (x :: inside) rest
  | inside, .closure pos function captured :: rest =>
    .closure pos function captured :: enclose inside rest

mutual

def Expr.mentions : Expr → List Mention
  | .var _ name [] => [.name name]
  | .array _ items => Expr.mentionsAll items
  | .map _ entries => Expr.mentionsEntries entries
  | .call _ _ _ args _ => Expr.mentionsAll args
  | .method _ object _ args => object.mentions ++ Expr.mentionsAll args
  | .property _ object _ => object.mentions
  | .index _ object index => object.mentions ++ index.mentions
  | .logical _ _ left right => left.mentions ++ right.mentions
  | .member _ left right => left.mentions ++ right.mentions
  | .block _ body => Mention.enclose [] (Stmt.mentionsAll body)
  | .branch _ condition yes no => condition.mentions ++ (yes.mentions ++ Expr.mentionsOption no)
  | .closure pos function captured => .closure pos function captured :: captured.map .name
  | _ => []

def Stmt.mentions : Stmt → List Mention
  | .expr _ e => e.mentions
  | .declare _ _ name value => Expr.mentionsOption value ++ [.declared name]
  | .assign _ _ target value => target.mentions ++ value.mentions
  | .loop _ condition body => Expr.mentionsOption condition ++ body.mentions
  | .each _ name items body => items.mentions ++ Mention.enclose [name] body.mentions
  | .returnValue _ value => Expr.mentionsOption value
  | .throwValue _ value => Expr.mentionsOption value
  | .importModule _ path _ => path.mentions
  | .exportNames _ names => names.map fun n => .name n.1
  | _ => []

def Expr.mentionsAll : List Expr → List Mention
  | [] => []
  | e :: rest => e.mentions ++ Expr.mentionsAll rest

def Expr.mentionsEntries : List (Text × Expr) → List Mention
  | [] => []
  | e :: rest => Expr.mentionsEntry e ++ Expr.mentionsEntries rest

def Expr.mentionsEntry : Text × Expr → List Mention
  | (_, e) => e.mentions

def Expr.mentionsOption : Option Expr → List Mention
  | none => []
  | some e => e.mentions

def Stmt.mentionsAll : List Stmt → List Mention
  | [] => []
  | s :: rest => s.mentions ++ Stmt.mentionsAll rest

end

def Script.mentions (script : Script) : List Mention :=
  Stmt.mentionsAll script.statements ++
    script.functions.flatMap fun f => Stmt.mentionsAll f.2.body

@[simp]
theorem Expr.mentionsAll_append (es fs : List Expr) :
    Expr.mentionsAll (es ++ fs) = Expr.mentionsAll es ++ Expr.mentionsAll fs := by
  induction es with
  | nil => rfl
  | cons e rest ih => simp [Expr.mentionsAll, ih]

@[simp]
theorem Expr.mentionsEntries_append (es fs : List (Text × Expr)) :
    Expr.mentionsEntries (es ++ fs) = Expr.mentionsEntries es ++ Expr.mentionsEntries fs := by
  induction es with
  | nil => rfl
  | cons e rest ih => simp [Expr.mentionsEntries, ih]

@[simp]
theorem Stmt.mentionsAll_append (ss us : List Stmt) :
    Stmt.mentionsAll (ss ++ us) = Stmt.mentionsAll ss ++ Stmt.mentionsAll us := by
  induction ss with
  | nil => rfl
  | cons s rest ih => simp [Stmt.mentionsAll, ih]

theorem Mention.mem_of_mem_enclose {inside : List Text} {ms : List Mention} {m : Mention}
    (h : m ∈ enclose inside ms) : m ∈ ms := by
  induction ms generalizing inside with
  | nil => exact h
  | cons first rest ih =>
    cases first with
    | name x =>
      by_cases hidden : x ∈ inside
      · rw [enclose, if_pos hidden] at h
        exact List.mem_cons_of_mem _ (ih h)
      · rw [enclose, if_neg hidden] at h
        rcases List.mem_cons.mp h with rfl | later
        · exact List.mem_cons_self
        · exact List.mem_cons_of_mem _ (ih later)
    | declared x => exact List.mem_cons_of_mem _ (ih h)
    | closure pos function captured =>
      rcases List.mem_cons.mp h with rfl | later
      · exact List.mem_cons_self
      · exact List.mem_cons_of_mem _ (ih later)

theorem Mention.closure_mem_enclose {inside : List Text} {ms : List Mention} {pos : Position}
    {function : Text} {captured : List Text} (h : .closure pos function captured ∈ ms) :
    .closure pos function captured ∈ enclose inside ms := by
  induction ms generalizing inside with
  | nil => cases h
  | cons first rest ih =>
    cases first with
    | name x =>
      have later : Mention.closure pos function captured ∈ enclose inside rest :=
        ih ((List.mem_cons.mp h).resolve_left (by simp))
      by_cases hidden : x ∈ inside
      · rwa [enclose, if_pos hidden]
      · rw [enclose, if_neg hidden]
        exact List.mem_cons_of_mem _ later
    | declared x => exact ih ((List.mem_cons.mp h).resolve_left (by simp))
    | closure pos' function' captured' =>
      rcases List.mem_cons.mp h with same | later
      · rw [same]
        exact List.mem_cons_self
      · exact List.mem_cons_of_mem _ (ih later)

namespace Grammar

def Body.meet (b : Body) : Mention → Body
  | .name x => b.use x
  | .declared x => { b with locals := b.locals ++ [x] }
  | .closure .. => b

def Body.follow (b : Body) (ms : List Mention) : Body := ms.foldl Body.meet b

namespace Body

@[simp]
theorem follow_nil (b : Body) : b.follow [] = b := rfl

theorem follow_cons (b : Body) (m : Mention) (ms : List Mention) :
    b.follow (m :: ms) = (b.meet m).follow ms := rfl

@[simp]
theorem follow_append (b : Body) (ms ns : List Mention) :
    b.follow (ms ++ ns) = (b.follow ms).follow ns := List.foldl_append

theorem use_locals (b : Body) (x : Text) : (b.use x).locals = b.locals := by
  unfold use
  split <;> rfl

theorem use_loopDepth (b : Body) (x : Text) (depth : Nat) :
    ({ b with loopDepth := depth } : Body).use x = { b.use x with loopDepth := depth } := by
  unfold use
  split <;> rfl

theorem follow_loopDepth (b : Body) (ms : List Mention) (depth : Nat) :
    ({ b with loopDepth := depth } : Body).follow ms = { b.follow ms with loopDepth := depth } := by
  induction ms generalizing b with
  | nil => rfl
  | cons m rest ih =>
    cases m with
    | name x => simp only [follow_cons, meet, use_loopDepth, ih]
    | declared x => exact ih { b with locals := b.locals ++ [x] }
    | closure => exact ih b

theorem loopDepth_follow (b : Body) (ms : List Mention) :
    (b.follow ms).loopDepth = b.loopDepth := by
  have same := congrArg Body.loopDepth (follow_loopDepth b ms b.loopDepth)
  exact same

theorem follow_enclose (b : Body) (inside extra : List Text) (same : ∀ x, x ∈ inside ↔ x ∈ extra)
    (ms : List Mention) : ∃ later,
      ({ b with locals := b.locals ++ extra } : Body).follow ms =
        { b.follow (Mention.enclose inside ms) with locals := b.locals ++ (extra ++ later) } ∧
      (b.follow (Mention.enclose inside ms)).locals = b.locals := by
  induction ms generalizing b inside extra with
  | nil => exact ⟨[], by simp [Mention.enclose], rfl⟩
  | cons m rest ih =>
    cases m with
    | name x =>
      by_cases hidden : x ∈ inside
      · have known : ({ b with locals := b.locals ++ extra } : Body).use x =
            { b with locals := b.locals ++ extra } := by
          unfold use
          rw [if_pos]
          simp [(same x).mp hidden]
        rw [Mention.enclose, if_pos hidden, follow_cons, meet, known]
        exact ih b inside extra same
      · have outer : ({ b with locals := b.locals ++ extra } : Body).use x =
            { b.use x with locals := (b.use x).locals ++ extra } := by
          have absent : x ∉ extra := fun h => hidden ((same x).mpr h)
          unfold use
          by_cases found : b.locals.contains x || b.captured.contains x
          · rw [if_pos found, if_pos (by simpa [absent] using found)]
          · rw [if_neg found, if_neg (by simpa [absent] using found)]
        rw [Mention.enclose, if_neg hidden, follow_cons, meet, outer, follow_cons, meet]
        obtain ⟨later, followed, locals⟩ := ih (b.use x) inside extra same
        rw [use_locals] at locals
        exact ⟨later, by rw [followed, use_locals], locals⟩
    | declared x =>
      have known : ∀ y, y ∈ x :: inside ↔ y ∈ extra ++ [x] := by
        intro y
        simp [same y, or_comm]
      obtain ⟨later, followed, locals⟩ := ih b (x :: inside) (extra ++ [x]) known
      refine ⟨[x] ++ later, ?_, locals⟩
      rw [follow_cons, meet, List.append_assoc, followed, Mention.enclose]
      simp
    | closure pos function captured => exact ih b inside extra same

/-- At the end of a block the body is as if it had met the block from outside. -/
theorem follow_block (b : Body) (ms : List Mention) :
    { b.follow ms with locals := (b.follow ms).locals.take b.locals.length } =
      b.follow (Mention.enclose [] ms) := by
  obtain ⟨later, followed, locals⟩ := follow_enclose b [] [] (by simp) ms
  have whole : b.follow ms =
      { b.follow (Mention.enclose [] ms) with locals := b.locals ++ later } := by
    simpa using followed
  rw [whole, List.take_left, ← locals]

theorem captured_follow (params : List Text) (ms : List Mention) (inside : List Text) (b : Body)
    (locals : ∀ x, x ∈ b.locals ↔ x ∈ params ∨ x ∈ inside) (once : b.captured.Nodup) :
    (b.follow ms).captured.Nodup ∧ ∀ x, x ∈ (b.follow ms).captured ↔
      x ∈ b.captured ∨ (.name x ∈ Mention.enclose inside ms ∧ x ∉ params) := by
  induction ms generalizing inside b with
  | nil => exact ⟨once, by simp [Mention.enclose]⟩
  | cons m rest ih =>
    cases m with
    | name y =>
      rw [follow_cons, meet]
      by_cases found : y ∈ b.locals ∨ y ∈ b.captured
      · have same : b.use y = b := by
          unfold use
          rw [if_pos (by simpa using found)]
        rw [same]
        obtain ⟨nodup, mem⟩ := ih inside b locals once
        refine ⟨nodup, fun x => ?_⟩
        rw [mem x]
        by_cases hidden : y ∈ inside
        · rw [Mention.enclose, if_pos hidden]
        · rw [Mention.enclose, if_neg hidden, List.mem_cons, Mention.name.injEq]
          have covered : x = y → x ∈ b.captured ∨ x ∈ params := by
            rintro rfl
            have := locals x
            grind
          grind
      · have more : b.use y = { b with captured := b.captured ++ [y] } := by
          unfold use
          rw [if_neg (by simpa using found)]
        have fresh : y ∉ params ∧ y ∉ inside := by
          have := locals y
          grind
        rw [more]
        have once' : (b.captured ++ [y]).Nodup := by
          rw [← List.concat_eq_append]
          exact List.Nodup.concat (fun h => found (.inr h)) once
        obtain ⟨nodup, mem⟩ := ih inside { b with captured := b.captured ++ [y] } locals once'
        refine ⟨nodup, fun x => ?_⟩
        rw [mem x, Mention.enclose, if_neg fresh.2, List.mem_cons, Mention.name.injEq,
          List.mem_append, List.mem_singleton]
        have new : x = y → x ∉ params := fun same => same ▸ fresh.1
        grind
    | declared y =>
      have locals' : ∀ x, x ∈ b.locals ++ [y] ↔ x ∈ params ∨ x ∈ y :: inside := by
        intro x
        have := locals x
        simp only [List.mem_append, List.mem_cons, List.not_mem_nil, or_false]
        grind
      exact ih (y :: inside) { b with locals := b.locals ++ [y] } locals' once
    | closure pos function captured =>
      rw [follow_cons, meet]
      obtain ⟨nodup, mem⟩ := ih inside b locals once
      exact ⟨nodup, fun x => by rw [mem x]; simp [Mention.enclose]⟩

end Body

end Grammar

end Scripting
