import Scripting.Proofs.Capture.Mentions

/-
Code in a scope: every variable without a path that it uses, and every variable that a closure in it
captures, is in scope where it stands. A declaration is in scope in the statements after it, up to
the end of its block, and the variable of a loop in the body of the loop.
-/
namespace Scripting

def Stmt.declares : Stmt → List Text
  | .declare _ _ name _ => [name]
  | _ => []

mutual

def Expr.Scoped : List Text → Expr → Prop
  | scope, .var _ name [] => name ∈ scope
  | scope, .array _ items => Expr.ScopedAll scope items
  | scope, .map _ entries => Expr.ScopedEntries scope entries
  | scope, .call _ _ _ args _ => Expr.ScopedAll scope args
  | scope, .method _ object _ args => object.Scoped scope ∧ Expr.ScopedAll scope args
  | scope, .property _ object _ => object.Scoped scope
  | scope, .index _ object index => object.Scoped scope ∧ index.Scoped scope
  | scope, .logical _ _ left right => left.Scoped scope ∧ right.Scoped scope
  | scope, .member _ left right => left.Scoped scope ∧ right.Scoped scope
  | scope, .block _ body => Stmt.ScopedAll scope body
  | scope, .branch _ condition yes no =>
    condition.Scoped scope ∧ yes.Scoped scope ∧ Expr.ScopedOption scope no
  | scope, .closure _ _ captured => ∀ x ∈ captured, x ∈ scope
  | _, _ => True

def Stmt.Scoped : List Text → Stmt → Prop
  | scope, .expr _ e => e.Scoped scope
  | scope, .declare _ _ _ value => Expr.ScopedOption scope value
  | scope, .assign _ _ target value => target.Scoped scope ∧ value.Scoped scope
  | scope, .loop _ condition body => Expr.ScopedOption scope condition ∧ body.Scoped scope
  | scope, .each _ name items body => items.Scoped scope ∧ body.Scoped (name :: scope)
  | scope, .returnValue _ value => Expr.ScopedOption scope value
  | scope, .throwValue _ value => Expr.ScopedOption scope value
  | scope, .importModule _ path _ => path.Scoped scope
  | scope, .exportNames _ names => ∀ n ∈ names, n.1 ∈ scope
  | _, _ => True

def Expr.ScopedAll : List Text → List Expr → Prop
  | _, [] => True
  | scope, e :: rest => e.Scoped scope ∧ Expr.ScopedAll scope rest

def Expr.ScopedEntries : List Text → List (Text × Expr) → Prop
  | _, [] => True
  | scope, e :: rest => Expr.ScopedEntry scope e ∧ Expr.ScopedEntries scope rest

def Expr.ScopedEntry : List Text → Text × Expr → Prop
  | scope, (_, e) => e.Scoped scope

def Expr.ScopedOption : List Text → Option Expr → Prop
  | _, none => True
  | scope, some e => e.Scoped scope

def Stmt.ScopedAll : List Text → List Stmt → Prop
  | _, [] => True
  | scope, s :: rest => s.Scoped scope ∧ Stmt.ScopedAll (s.declares ++ scope) rest

end

/-! Declarations do not leave an expression. -/

namespace Mention

theorem declared_not_mem_enclose (x : Text) (inside : List Text) (ms : List Mention) :
    .declared x ∉ enclose inside ms := by
  induction ms generalizing inside with
  | nil => simp [enclose]
  | cons m rest ih =>
    cases m with
    | name y =>
      by_cases hidden : y ∈ inside
      · simpa [enclose, hidden] using ih inside
      · simpa [enclose, hidden] using ih inside
    | declared y => exact ih (y :: inside)
    | closure => simpa [enclose] using ih inside

theorem enclose_append {ms : List Mention} (undeclared : ∀ y, .declared y ∉ ms)
    (inside : List Text) (ns : List Mention) :
    enclose inside (ms ++ ns) = enclose inside ms ++ enclose inside ns := by
  induction ms with
  | nil => rfl
  | cons m rest ih =>
    have later := ih fun y h => undeclared y (List.mem_cons_of_mem m h)
    cases m with
    | name y => by_cases hidden : y ∈ inside <;> simp [enclose, hidden, later]
    | declared y => exact absurd List.mem_cons_self (undeclared y)
    | closure => simp [enclose, later]

theorem enclose_declared (inside xs : List Text) (ns : List Mention) :
    enclose inside (xs.map .declared ++ ns) = enclose (xs.reverse ++ inside) ns := by
  induction xs generalizing inside with
  | nil => rfl
  | cons x rest ih => simp [enclose, ih]

theorem name_mem_enclose {x : Text} {ms : List Mention} (undeclared : ∀ y, .declared y ∉ ms)
    (h : .name x ∈ ms) (inside : List Text) :
    x ∈ inside ∨ .name x ∈ enclose inside ms := by
  induction ms with
  | nil => cases h
  | cons m rest ih =>
    have later := ih fun y h => undeclared y (List.mem_cons_of_mem m h)
    cases m with
    | name y =>
      by_cases hidden : y ∈ inside
      · simp only [enclose, if_pos hidden]
        rcases List.mem_cons.mp h with same | found
        · cases same
          exact .inl hidden
        · exact later found
      · simp only [enclose, if_neg hidden, List.mem_cons]
        rcases List.mem_cons.mp h with same | found
        · exact .inr (.inl same)
        · exact (later found).imp_right .inr
    | declared y => exact absurd List.mem_cons_self (undeclared y)
    | closure =>
      simp only [enclose, List.mem_cons, reduceCtorEq, false_or]
      exact later ((List.mem_cons.mp h).resolve_left (by simp))

end Mention

mutual

theorem Expr.undeclared (e : Expr) (y : Text) : .declared y ∉ e.mentions := by
  cases e with
  | var pos name path => cases path <;> simp [Expr.mentions]
  | array pos items => simpa [Expr.mentions] using Expr.undeclaredAll items y
  | map pos entries => simpa [Expr.mentions] using Expr.undeclaredEntries entries y
  | call pos name path args => simpa [Expr.mentions] using Expr.undeclaredAll args y
  | method pos object name args =>
    simpa [Expr.mentions] using ⟨object.undeclared y, Expr.undeclaredAll args y⟩
  | property pos object name => simpa [Expr.mentions] using object.undeclared y
  | index pos object index => simpa [Expr.mentions] using ⟨object.undeclared y, index.undeclared y⟩
  | logical pos isAnd left right =>
    simpa [Expr.mentions] using ⟨left.undeclared y, right.undeclared y⟩
  | member pos left right => simpa [Expr.mentions] using ⟨left.undeclared y, right.undeclared y⟩
  | block pos body => exact Mention.declared_not_mem_enclose y [] _
  | branch pos condition yes no =>
    simpa [Expr.mentions] using
      ⟨condition.undeclared y, yes.undeclared y, Expr.undeclaredOption no y⟩
  | closure => simp [Expr.mentions]
  | _ => simp [Expr.mentions]

theorem Expr.undeclaredAll (es : List Expr) (y : Text) : .declared y ∉ Expr.mentionsAll es := by
  cases es with
  | nil => simp [Expr.mentionsAll]
  | cons e rest => simpa [Expr.mentionsAll] using ⟨e.undeclared y, Expr.undeclaredAll rest y⟩

theorem Expr.undeclaredEntries (es : List (Text × Expr)) (y : Text) :
    .declared y ∉ Expr.mentionsEntries es := by
  cases es with
  | nil => simp [Expr.mentionsEntries]
  | cons e rest =>
    simpa [Expr.mentionsEntries] using
      ⟨Expr.undeclaredEntry e y, Expr.undeclaredEntries rest y⟩

theorem Expr.undeclaredEntry (e : Text × Expr) (y : Text) : .declared y ∉ Expr.mentionsEntry e := by
  cases e with
  | mk key e => simpa [Expr.mentionsEntry] using e.undeclared y

theorem Expr.undeclaredOption (e : Option Expr) (y : Text) :
    .declared y ∉ Expr.mentionsOption e := by
  cases e with
  | none => simp [Expr.mentionsOption]
  | some e => simpa [Expr.mentionsOption] using e.undeclared y

end

theorem Stmt.mentions_eq (s : Stmt) : ∃ ms : List Mention,
    (∀ y, .declared y ∉ ms) ∧ s.mentions = ms ++ s.declares.map .declared := by
  cases s with
  | expr pos e => exact ⟨e.mentions, e.undeclared, by simp [Stmt.mentions, Stmt.declares]⟩
  | declare pos isConst name value =>
    exact ⟨_, Expr.undeclaredOption value, by simp [Stmt.mentions, Stmt.declares]⟩
  | assign pos operator target value =>
    refine ⟨target.mentions ++ value.mentions, ?_, by simp [Stmt.mentions, Stmt.declares]⟩
    intro y
    simpa using ⟨target.undeclared y, value.undeclared y⟩
  | loop pos condition body =>
    refine ⟨Expr.mentionsOption condition ++ body.mentions, ?_,
      by simp [Stmt.mentions, Stmt.declares]⟩
    intro y
    simpa using ⟨Expr.undeclaredOption condition y, body.undeclared y⟩
  | each pos name items body =>
    refine ⟨items.mentions ++ Mention.enclose [name] body.mentions, ?_,
      by simp [Stmt.mentions, Stmt.declares]⟩
    intro y
    simpa using ⟨items.undeclared y, Mention.declared_not_mem_enclose y _ _⟩
  | returnValue pos value =>
    exact ⟨_, Expr.undeclaredOption value, by simp [Stmt.mentions, Stmt.declares]⟩
  | throwValue pos value =>
    exact ⟨_, Expr.undeclaredOption value, by simp [Stmt.mentions, Stmt.declares]⟩
  | importModule pos path asName =>
    exact ⟨_, path.undeclared, by simp [Stmt.mentions, Stmt.declares]⟩
  | exportNames pos names =>
    exact ⟨names.map fun n => .name n.1, by simp, by simp [Stmt.mentions, Stmt.declares]⟩
  | _ => exact ⟨[], by simp, by simp [Stmt.mentions, Stmt.declares]⟩

/-! Code is scoped if the names it mentions are. -/

mutual

theorem Expr.scoped_of_mentions (e : Expr) {scope : List Text}
    (known : ∀ x, .name x ∈ e.mentions → x ∈ scope) : e.Scoped scope := by
  cases e with
  | var pos name path =>
    cases path with
    | nil => exact known name (by simp [Expr.mentions])
    | cons => simp [Expr.Scoped]
  | array pos items => exact Expr.scopedAll_of_mentions items fun x h => known x h
  | map pos entries => exact Expr.scopedEntries_of_mentions entries fun x h => known x h
  | call pos name path args => exact Expr.scopedAll_of_mentions args fun x h => known x h
  | method pos object name args =>
    simp only [Expr.mentions, List.mem_append] at known
    exact ⟨object.scoped_of_mentions fun x h => known x (.inl h),
      Expr.scopedAll_of_mentions args fun x h => known x (.inr h)⟩
  | property pos object name => exact object.scoped_of_mentions fun x h => known x h
  | index pos object index =>
    simp only [Expr.mentions, List.mem_append] at known
    exact ⟨object.scoped_of_mentions fun x h => known x (.inl h),
      index.scoped_of_mentions fun x h => known x (.inr h)⟩
  | logical pos isAnd left right =>
    simp only [Expr.mentions, List.mem_append] at known
    exact ⟨left.scoped_of_mentions fun x h => known x (.inl h),
      right.scoped_of_mentions fun x h => known x (.inr h)⟩
  | member pos left right =>
    simp only [Expr.mentions, List.mem_append] at known
    exact ⟨left.scoped_of_mentions fun x h => known x (.inl h),
      right.scoped_of_mentions fun x h => known x (.inr h)⟩
  | block pos body => exact Stmt.scopedAll_of_mentions body [] fun x h => known x h
  | branch pos condition yes no =>
    simp only [Expr.mentions, List.mem_append] at known
    exact ⟨condition.scoped_of_mentions fun x h => known x (.inl h),
      yes.scoped_of_mentions fun x h => known x (.inr (.inl h)),
      Expr.scopedOption_of_mentions no fun x h => known x (.inr (.inr h))⟩
  | closure pos function captured =>
    intro x hx
    exact known x (by simp [Expr.mentions, hx])
  | _ => simp [Expr.Scoped]

theorem Stmt.scoped_of_mentions (s : Stmt) {scope : List Text}
    (known : ∀ x, .name x ∈ s.mentions → x ∈ scope) : s.Scoped scope := by
  cases s with
  | expr pos e => exact e.scoped_of_mentions fun x h => known x h
  | declare pos isConst name value =>
    exact Expr.scopedOption_of_mentions value fun x h => known x (by simp [Stmt.mentions, h])
  | assign pos operator target value =>
    simp only [Stmt.mentions, List.mem_append] at known
    exact ⟨target.scoped_of_mentions fun x h => known x (.inl h),
      value.scoped_of_mentions fun x h => known x (.inr h)⟩
  | loop pos condition body =>
    simp only [Stmt.mentions, List.mem_append] at known
    exact ⟨Expr.scopedOption_of_mentions condition fun x h => known x (.inl h),
      body.scoped_of_mentions fun x h => known x (.inr h)⟩
  | each pos name items body =>
    simp only [Stmt.mentions, List.mem_append] at known
    refine ⟨items.scoped_of_mentions fun x h => known x (.inl h),
      body.scoped_of_mentions fun x h => ?_⟩
    rcases Mention.name_mem_enclose body.undeclared h [name] with own | outer
    · exact List.mem_cons.mpr (.inl (List.mem_singleton.mp own))
    · exact List.mem_cons_of_mem name (known x (.inr outer))
  | returnValue pos value => exact Expr.scopedOption_of_mentions value fun x h => known x h
  | throwValue pos value => exact Expr.scopedOption_of_mentions value fun x h => known x h
  | importModule pos path asName => exact path.scoped_of_mentions fun x h => known x h
  | exportNames pos names =>
    intro n hn
    exact known n.1 (List.mem_map.mpr ⟨n, hn, rfl⟩)
  | _ => simp [Stmt.Scoped]

theorem Expr.scopedAll_of_mentions (es : List Expr) {scope : List Text}
    (known : ∀ x, .name x ∈ Expr.mentionsAll es → x ∈ scope) : Expr.ScopedAll scope es := by
  cases es with
  | nil => trivial
  | cons e rest =>
    simp only [Expr.mentionsAll, List.mem_append] at known
    exact ⟨e.scoped_of_mentions fun x h => known x (.inl h),
      Expr.scopedAll_of_mentions rest fun x h => known x (.inr h)⟩

theorem Expr.scopedEntries_of_mentions (es : List (Text × Expr)) {scope : List Text}
    (known : ∀ x, .name x ∈ Expr.mentionsEntries es → x ∈ scope) :
    Expr.ScopedEntries scope es := by
  cases es with
  | nil => trivial
  | cons e rest =>
    simp only [Expr.mentionsEntries, List.mem_append] at known
    exact ⟨Expr.scopedEntry_of_mentions e fun x h => known x (.inl h),
      Expr.scopedEntries_of_mentions rest fun x h => known x (.inr h)⟩

theorem Expr.scopedEntry_of_mentions (e : Text × Expr) {scope : List Text}
    (known : ∀ x, .name x ∈ Expr.mentionsEntry e → x ∈ scope) : Expr.ScopedEntry scope e := by
  cases e with
  | mk key e => exact e.scoped_of_mentions fun x h => known x h

theorem Expr.scopedOption_of_mentions (e : Option Expr) {scope : List Text}
    (known : ∀ x, .name x ∈ Expr.mentionsOption e → x ∈ scope) : Expr.ScopedOption scope e := by
  cases e with
  | none => trivial
  | some e => exact e.scoped_of_mentions fun x h => known x h

theorem Stmt.scopedAll_of_mentions (ss : List Stmt) (inside : List Text) {scope : List Text}
    (known : ∀ x, .name x ∈ Mention.enclose inside (Stmt.mentionsAll ss) → x ∈ scope) :
    Stmt.ScopedAll (inside ++ scope) ss := by
  cases ss with
  | nil => trivial
  | cons s rest =>
    obtain ⟨ms, undeclared, whole⟩ := s.mentions_eq
    have split : Mention.enclose inside (Stmt.mentionsAll (s :: rest)) =
        Mention.enclose inside ms ++
          Mention.enclose (s.declares.reverse ++ inside) (Stmt.mentionsAll rest) := by
      rw [Stmt.mentionsAll, whole, List.append_assoc, Mention.enclose_append undeclared,
        Mention.enclose_declared]
    rw [split] at known
    simp only [List.mem_append] at known
    have single : s.declares.reverse = s.declares := by cases s <;> rfl
    refine ⟨s.scoped_of_mentions fun x h => ?_, ?_⟩
    · rw [whole] at h
      have here : .name x ∈ ms := by simpa using h
      rcases Mention.name_mem_enclose undeclared here inside with own | outer
      · exact List.mem_append_left _ own
      · exact List.mem_append_right _ (known x (.inl outer))
    · have later := Stmt.scopedAll_of_mentions rest (s.declares.reverse ++ inside)
        fun x h => known x (.inr h)
      rwa [single, List.append_assoc] at later

end

end Scripting
