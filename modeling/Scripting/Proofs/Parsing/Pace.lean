import Scripting.Proofs.Capture.State

/-
How reading goes forward. The rules of the grammar take tokens before they enter each other, so the
bounds that they are given are never used up; no token is taken that stands for a fault in the
characters; closures are numbered in the order in which they end, and no number is given twice.
-/
namespace Scripting

/-- How many tokens are sure to be taken if this is the next one: the end is not taken, and a fault
in the characters must not be. -/
def Token.count : Token → Nat
  | .eof | .fault _ => 0
  | _ => 1

namespace Grammar

/-- The functions of closures go by numbers of their own, from `base` up to the next one, and each of
these numbers has its function. -/
structure State.Numbered (base : Nat) (s : State) : Prop where
  start : base ≤ s.nextClosure
  given : ∀ id, base ≤ id → id < s.nextClosure → ∃ f ∈ s.functions, f.2.name = closureName id
  numbers : ∀ f ∈ s.functions, ∀ id, f.2.name = closureName id → base ≤ id ∧ id < s.nextClosure
  once : ∀ f ∈ s.functions, ∀ g ∈ s.functions, ∀ id, f.2.name = closureName id →
    g.2.name = closureName id → f = g
  keys : ∀ f ∈ s.functions, f.1 = f.2.key

theorem State.numbered_start (tokens : List PlacedToken) (first : Nat) :
    (State.start tokens first).Numbered first := by
  refine ⟨Nat.le_refl _, fun id since before => absurd before (Nat.not_lt.mpr since), ?_, ?_, ?_⟩
  all_goals exact fun _ none => nomatch none

def Faultless (tokens : List PlacedToken) : Prop := ∀ token ∈ tokens, ∀ e, token.1 ≠ .fault e

structure State.To (tokens : List PlacedToken) (s t : State) : Prop where
  taken : ∃ used, s.rest = used ++ t.rest ∧ Faultless used
  endPos : t.endPos = s.endPos
  nextClosure : s.nextClosure ≤ t.nextClosure
  numbered : Unmarked tokens → ∀ base, s.Numbered base → t.Numbered base

def Paced {α : Type} (tokens : List PlacedToken) (s : State) (Q : State → Prop) :
    EStateM.Result Stop State α → Prop
  | .ok _ t => s.To tokens t ∧ Q t
  | .error e t => e ≠ .exhausted ∧ s.To tokens t

/-- From places with at most `l` tokens to come, where `g` of them can be taken at once, at least `k`
are taken. -/
def Paces {α : Type} (tokens : List PlacedToken) (g l k : Nat) (p : Parse α) : Prop :=
  ∀ s, s.rest <:+ tokens → g ≤ s.current.1.count → s.rest.length ≤ l →
    Paced tokens s (fun t => t.rest.length + k ≤ s.rest.length) (p s)

variable {tokens : List PlacedToken} {α β : Type} {g l k : Nat} {s t u : State}

namespace State.To

theorem rest (h : s.To tokens t) : t.rest <:+ s.rest := by
  obtain ⟨used, eq, -⟩ := h.taken
  exact ⟨used, eq.symm⟩

theorem trans (h : s.To tokens t) (h' : t.To tokens u) : s.To tokens u := by
  obtain ⟨used, eq, clean⟩ := h.taken
  obtain ⟨more, eq', clean'⟩ := h'.taken
  refine ⟨⟨used ++ more, by rw [eq, eq', List.append_assoc], ?_⟩, h'.endPos.trans h.endPos,
    Nat.le_trans h.nextClosure h'.nextClosure,
    fun clear base numbered => h'.numbered clear base (h.numbered clear base numbered)⟩
  intro token there
  rcases List.mem_append.mp there with first | later
  · exact clean token first
  · exact clean' token later

theorem of_taken (taken : ∃ used, s.rest = used ++ t.rest ∧ Faultless used)
    (endPos : t.endPos = s.endPos) (functions : t.functions = s.functions)
    (next : t.nextClosure = s.nextClosure) : s.To tokens t := by
  refine ⟨taken, endPos, Nat.le_of_eq next.symm, ?_⟩
  rintro - base ⟨start, given, numbers, once, keys⟩
  rw [← functions, ← next] at *
  exact ⟨start, given, numbers, once, keys⟩

theorem of_same (rest : t.rest = s.rest) (endPos : t.endPos = s.endPos)
    (functions : t.functions = s.functions) (next : t.nextClosure = s.nextClosure) :
    s.To tokens t :=
  of_taken ⟨[], rest.symm, fun _ none => nomatch none⟩ endPos functions next

theorem refl (s : State) : s.To tokens s := of_same rfl rfl rfl rfl

theorem one {first : PlacedToken} {later : List PlacedToken} (rest : s.rest = first :: later)
    (clean : ∀ e, first.1 ≠ .fault e) : s.To tokens { s with rest := s.rest.tail } := by
  refine of_taken ⟨[first], by simp [rest], ?_⟩ rfl rfl rfl
  intro token there
  rw [List.mem_singleton.mp there]
  exact clean

end State.To

theorem Paced.imp {Q R : State → Prop} {r : EStateM.Result Stop State α} (h : Paced tokens s Q r)
    (weaker : ∀ t, Q t → R t) : Paced tokens s R r := by
  cases r with
  | ok a t => exact ⟨h.1, weaker t h.2⟩
  | error e t => exact h

theorem Paced.after {Q : State → Prop} {r : EStateM.Result Stop State α} (first : s.To tokens t)
    (h : Paced tokens t Q r) : Paced tokens s Q r := by
  cases r with
  | ok a u => exact ⟨first.trans h.1, h.2⟩
  | error e u => exact ⟨h.1, first.trans h.2⟩

theorem Paced.bind {Q R : State → Prop} {p : Parse α} {f : α → Parse β}
    (hp : Paced tokens s Q (p s))
    (hf : ∀ a t, s.To tokens t → Q t → Paced tokens t R (f a t)) :
    Paced tokens s R ((p >>= f) s) := by
  change Paced tokens s R (EStateM.bind p f s)
  unfold EStateM.bind
  cases first : p s with
  | error e t =>
    rw [first] at hp
    exact hp
  | ok a t =>
    rw [first] at hp
    exact (hf a t hp.1 hp.2).after hp.1

namespace Paces

theorem weaken {g' l' k' : Nat} {p : Parse α} (h : Paces tokens g l k p) (hg : g ≤ g') (hl : l' ≤ l)
    (hk : k' ≤ k) : Paces tokens g' l' k' p := by
  intro s within least most
  refine (h s within (Nat.le_trans hg least) (Nat.le_trans most hl)).imp fun t ht => ?_
  omega

theorem anywhere {p : Parse α} (h : Paces tokens 0 l k p) : Paces tokens g l k p :=
  h.weaken (Nat.zero_le _) (Nat.le_refl _) (Nat.le_refl _)

theorem give (a : α) : Paces tokens g l 0 (pure a) :=
  fun s _ _ _ => ⟨.refl s, Nat.le_refl _⟩

theorem done (a : α) (none : k = 0) : Paces tokens g l k (pure a) := by
  subst none
  exact give a

theorem fault (e : Error) : Paces tokens g l k (throw (.fault e) : Parse α) :=
  fun s _ _ _ => ⟨by simp, .refl s⟩

theorem bind {j : Nat} {p : Parse α} {f : α → Parse β} (hp : Paces tokens g l j p)
    (hf : j ≤ l → ∀ a, Paces tokens 0 (l - j) (k - j) (f a)) : Paces tokens g l k (p >>= f) := by
  intro s within least most
  refine Paced.bind (hp s within least most) fun a t onto taken => ?_
  refine (hf (by omega) a t (onto.rest.trans within) (Nat.zero_le _) (by omega)).imp fun u hu => ?_
  omega

theorem failed {p : Parse α} (h : ∀ k, Paces tokens g l k p) (f : α → Parse β) :
    Paces tokens g l k (p >>= f) := by
  refine (h (l + 1)).bind fun never => ?_
  omega

theorem map {p : Parse α} (h : Paces tokens g l k p) (f : α → β) : Paces tokens g l k (f <$> p) := by
  rw [map_eq_pure_bind]
  exact h.bind fun _ a => done (f a) (by omega)

theorem get_bind {f : State → Parse β} (hf : ∀ s, Paces tokens g l k (f s)) :
    Paces tokens g l k (get >>= f) :=
  fun s => hf s s

theorem change_bind {f : State → State} {p : PUnit → Parse β} (hp : Paces tokens g l k (p ()))
    (same : ∀ s, (f s).rest = s.rest ∧ (f s).endPos = s.endPos ∧ (f s).functions = s.functions ∧
      (f s).nextClosure = s.nextClosure) : Paces tokens g l k (modify f >>= p) := by
  intro s within least most
  obtain ⟨rest, endPos, functions, next⟩ := same s
  have first : s.To tokens (f s) := .of_same rest endPos functions next
  have current : (f s).current = s.current := by rw [State.current, State.current, rest, endPos]
  have later := hp (f s) (by rwa [rest]) (by rwa [current]) (by rwa [rest])
  rw [rest] at later
  exact later.after first

theorem change {f : State → State} (same : ∀ s, (f s).rest = s.rest ∧ (f s).endPos = s.endPos ∧
    (f s).functions = s.functions ∧ (f s).nextClosure = s.nextClosure) :
    Paces tokens g l 0 (modify f : Parse PUnit) :=
  change_bind (give ()) same

end Paces

open Paces

theorem failAt_paces (pos : Position) (fault : ParseFault) (detail : Text) :
    Paces tokens g l k (failAt pos fault detail : Parse α) := Paces.fault _

theorem current_among {f : Token → Parse β} (hf : ∀ token,
    (token = .eof ∨ ∃ pos, (token, pos) ∈ tokens) → Paces tokens (max g token.count) l k (f token)) :
    Paces tokens g l k (current >>= f) := by
  intro s within least most
  refine hf s.current.1 ?_ s within (Nat.max_le.mpr ⟨least, Nat.le_refl _⟩) most
  unfold State.current
  cases rest : s.rest with
  | nil => exact .inl rfl
  | cons first later =>
    rw [rest] at within
    exact .inr ⟨first.2, within.mem (by simp)⟩

theorem current_bind {f : Token → Parse β}
    (hf : ∀ token, Paces tokens (max g token.count) l k (f token)) :
    Paces tokens g l k (current >>= f) :=
  current_among fun token _ => hf token

theorem currentPos_bind {f : Position → Parse β} (hf : ∀ pos, Paces tokens g l k (f pos)) :
    Paces tokens g l k (currentPos >>= f) :=
  fun s => hf s.current.2 s

theorem second_bind {f : Token → Parse β} (hf : ∀ token, Paces tokens g l k (f token)) :
    Paces tokens g l k (second >>= f) :=
  fun s => hf _ s

/-- The number of tokens to come is a bound for a loop. -/
theorem remaining_bind {f : Nat → Parse β} (hf : ∀ n, n ≤ l → Paces tokens g n k (f n)) :
    Paces tokens g l k (remaining >>= f) :=
  fun s within least most => hf s.rest.length most s within least (Nat.le_refl _)

theorem State.current_cases {s : State} (some : 1 ≤ s.current.1.count) :
    ∃ later, s.rest = s.current :: later ∧ ∀ e, s.current.1 ≠ .fault e := by
  have clean : ∀ e, s.current.1 ≠ .fault e := by
    intro e eq
    rw [eq] at some
    exact absurd some (Nat.not_succ_le_zero 0)
  unfold State.current at some clean ⊢
  cases rest : s.rest with
  | nil =>
    rw [rest] at some
    exact absurd some (Nat.not_succ_le_zero 0)
  | cons first later =>
    rw [rest] at clean
    exact ⟨later, rfl, clean⟩

theorem advance_to (tokens : List PlacedToken) (some : 1 ≤ s.current.1.count) :
    advance s = .ok s.current { s with rest := s.rest.tail } ∧
      s.To tokens { s with rest := s.rest.tail } := by
  obtain ⟨later, rest, clean⟩ := s.current_cases some
  exact ⟨rfl, .one rest clean⟩

theorem advance_paces : Paces tokens 1 l 1 advance := by
  intro s _ some _
  obtain ⟨ran, onto⟩ := advance_to tokens some
  obtain ⟨later, rest, -⟩ := s.current_cases some
  rw [ran]
  refine ⟨onto, ?_⟩
  simp [rest]

theorem check_bind (symbol : Symbol) {f : Bool → Parse β}
    (hf : ∀ found : Bool, Paces tokens (max g found.toNat) l k (f found)) :
    Paces tokens g l k (check symbol >>= f) := by
  unfold check
  rw [bind_assoc]
  refine current_bind fun token => ?_
  have answer : ∀ found : Bool, found.toNat ≤ token.count →
      Paces tokens (max g token.count) l k (pure found >>= f) := by
    intro found known
    rw [pure_bind]
    exact (hf found).weaken (by omega) (Nat.le_refl _) (Nat.le_refl _)
  cases token with
  | symbol other => exact answer _ (Bool.toNat_le _)
  | _ => exact answer false (Nat.zero_le _)

theorem atEnd_bind {f : Bool → Parse β} (hf : ∀ ended, Paces tokens g l k (f ended)) :
    Paces tokens g l k (atEnd >>= f) :=
  fun s => hf s.current.1.isEof s

theorem accept_else_bind (symbol : Symbol) {f : Bool → Parse β}
    (taken : 1 ≤ l → Paces tokens 0 (l - 1) (k - 1) (f true))
    (other : Paces tokens g l k (f false)) : Paces tokens g l k (accept symbol >>= f) := by
  unfold accept
  rw [bind_assoc]
  refine check_bind symbol fun found => ?_
  cases found with
  | false => exact other.weaken (Nat.le_max_left g 0) (Nat.le_refl _) (Nat.le_refl _)
  | true =>
    change Paces tokens _ l k ((advance >>= fun _ => pure true) >>= f)
    simp only [bind_assoc, pure_bind]
    exact (advance_paces.bind fun some _ => taken some).weaken (Nat.le_max_right g 1)
      (Nat.le_refl _) (Nat.le_refl _)

theorem accept_bind (symbol : Symbol) {f : Bool → Parse β}
    (hf : ∀ found : Bool, found.toNat ≤ l →
      Paces tokens 0 (l - found.toNat) (k - found.toNat) (f found)) :
    Paces tokens g l k (accept symbol >>= f) :=
  accept_else_bind symbol (hf true) (hf false (Nat.zero_le _)).anywhere

theorem unexpected_paces : Paces tokens g l k (unexpected : Parse α) := by
  refine get_bind fun s => ?_
  dsimp only
  split
  · exact failAt_paces _ _ _
  · exact failAt_paces _ _ _
  · split
    · exact failAt_paces _ _ _
    · split <;> exact failAt_paces _ _ _
  · exact failAt_paces _ _ _

theorem fail_paces (fault : ParseFault) (detail : Text) :
    Paces tokens g l k (fail fault detail : Parse α) :=
  currentPos_bind fun pos => failAt_paces pos fault detail

theorem failUnlessLexed_paces (fault : ParseFault) (detail : Text) :
    Paces tokens g l k (failUnlessLexed fault detail : Parse α) := by
  refine current_bind fun token => ?_
  split
  · exact unexpected_paces
  · exact fail_paces fault detail

theorem expect_paces (symbol : Symbol) (detail : Text) :
    Paces tokens g l 1 (expect symbol detail) := by
  refine accept_bind symbol fun found _ => ?_
  cases found with
  | true => exact give ()
  | false => exact failUnlessLexed_paces _ detail

theorem identifier?_bind {f : Option Text → Parse β}
    (hf : ∀ name : Option Text, Paces tokens (max g name.isSome.toNat) l k (f name)) :
    Paces tokens g l k (identifier? >>= f) := by
  unfold identifier?
  rw [bind_assoc]
  refine current_bind fun token => ?_
  have answer : ∀ name : Option Text, name.isSome.toNat ≤ token.count →
      Paces tokens (max g token.count) l k (pure name >>= f) := by
    intro name known
    rw [pure_bind]
    exact (hf name).weaken (by omega) (Nat.le_refl _) (Nat.le_refl _)
  cases token with
  | identifier name => exact answer (some name) (Nat.le_refl _)
  | _ => exact answer none (Nat.zero_le _)

theorem service?_bind {f : Option Text → Parse β}
    (hf : ∀ name : Option Text, Paces tokens (max g name.isSome.toNat) l k (f name)) :
    Paces tokens g l k (service? >>= f) := by
  unfold service?
  rw [bind_assoc]
  refine current_bind fun token => ?_
  have answer : ∀ name : Option Text, name.isSome.toNat ≤ token.count →
      Paces tokens (max g token.count) l k (pure name >>= f) := by
    intro name known
    rw [pure_bind]
    exact (hf name).weaken (by omega) (Nat.le_refl _) (Nat.le_refl _)
  cases token with
  | reserved name => exact answer _ (Bool.toNat_le _)
  | _ => exact answer none (Nat.zero_le _)

theorem use_paces (name : Text) : Paces tokens g l 0 (use name) :=
  change fun _ => ⟨rfl, rfl, rfl, rfl⟩

theorem useAll_paces (names : List Text) : Paces tokens g l 0 (names.forM use) := by
  induction names generalizing g with
  | nil => exact give ()
  | cons name rest ih => exact (use_paces name).bind fun _ _ => ih

theorem declare_paces (name : Text) : Paces tokens g l 0 (declare name) :=
  change fun _ => ⟨rfl, rfl, rfl, rfl⟩

theorem define_paces {f : ScriptFn} (own : Unmarked tokens → ∀ id, f.name ≠ closureName id) :
    Paces tokens g l 0 (define f) := by
  intro s _ _ _
  refine ⟨⟨⟨[], rfl, fun _ none => nomatch none⟩, rfl, Nat.le_refl _, ?_⟩, Nat.le_refl _⟩
  rintro clear base ⟨start, given, numbers, once, keys⟩
  have old : ∀ e ∈ s.functions.insert f.key f, ∀ id, e.2.name = closureName id →
      e ∈ s.functions := by
    intro e he id named
    rcases Dict.mem_insert he with rfl | there
    · exact absurd named (own clear id)
    · exact there
  refine ⟨start, ?_, ?_, ?_, ?_⟩
  · intro id since before
    obtain ⟨e, he, named⟩ := given id since before
    refine ⟨e, Dict.mem_insert_of_ne f he fun same => own clear id ?_, named⟩
    rw [← named]
    exact (congrArg FnKey.name ((keys e he).symm.trans same)).symm
  · exact fun e he id named => numbers e (old e he id named) id named
  · exact fun e he e' he' id named named' =>
      once e (old e he id named) e' (old e' he' id named') id named named'
  · intro e he
    rcases Dict.mem_insert he with rfl | there
    · rfl
    · exact keys e there

theorem freshClosure_bind {f : Nat → ScriptFn} (named : ∀ id, (f id).name = closureName id)
    {p : Nat → Parse β} (hp : ∀ id, Paces tokens 0 l k (p id)) :
    Paces tokens g l k (freshClosure >>= fun id => define (f id) >>= fun _ => p id) := by
  intro s within _ most
  refine Paced.after ?_ (hp s.nextClosure _ within (Nat.zero_le _) most)
  refine ⟨⟨[], rfl, fun _ none => nomatch none⟩, rfl, Nat.le_succ _, ?_⟩
  rintro - base ⟨start, given, numbers, once, keys⟩
  have fresh : ∀ e ∈ s.functions, e.2.name ≠ closureName s.nextClosure := by
    intro e he same
    have := (numbers e he _ same).2
    omega
  refine ⟨Nat.le_succ_of_le start, ?_, ?_, ?_, ?_⟩
  · intro id since before
    rcases Nat.lt_succ_iff_lt_or_eq.mp before with earlier | rfl
    · obtain ⟨e, he, same⟩ := given id since earlier
      refine ⟨e, Dict.mem_insert_of_ne _ he fun alike => fresh e he ?_, same⟩
      exact (congrArg FnKey.name ((keys e he).symm.trans alike)).trans (named _)
    · exact ⟨_, Dict.mem_of_find? (Dict.find?_insert_self _ _ _), named _⟩
  · intro e he id same
    rcases Dict.mem_insert he with rfl | there
    · obtain rfl := closureName_injective ((named _).symm.trans same)
      exact ⟨start, Nat.lt_succ_self _⟩
    · exact ⟨(numbers e there id same).1, Nat.lt_succ_of_lt (numbers e there id same).2⟩
  · intro e he e' he' id same same'
    rcases Dict.mem_insert he with rfl | there
    · rcases Dict.mem_insert he' with rfl | there'
      · rfl
      · exact absurd (same'.trans (same.symm.trans (named _))) (fresh e' there')
    · rcases Dict.mem_insert he' with rfl | there'
      · exact absurd (same.trans (same'.symm.trans (named _))) (fresh e there)
      · exact once e there e' there' id same same'
  · intro e he
    rcases Dict.mem_insert he with rfl | there
    · rfl
    · exact keys e there

section Wrappers

variable {p : Parse α} (h : Paces tokens g l k p)
include h

theorem inScope_paces : Paces tokens g l k (inScope p) := by
  refine get_bind fun s => ?_
  refine h.bind fun _ a => ?_
  exact change_bind (done a (Nat.sub_self k)) fun _ => ⟨rfl, rfl, rfl, rfl⟩

theorem inLoop_paces : Paces tokens g l k (inLoop p) := by
  refine change_bind ?_ fun _ => ⟨rfl, rfl, rfl, rfl⟩
  refine h.bind fun _ a => ?_
  exact change_bind (done a (Nat.sub_self k)) fun _ => ⟨rfl, rfl, rfl, rfl⟩

theorem inBody_paces (body : Body) : Paces tokens g l k (inBody body p) := by
  refine change_bind ?_ fun _ => ⟨rfl, rfl, rfl, rfl⟩
  refine h.bind fun _ a => ?_
  refine get_bind fun s => ?_
  exact change_bind (done _ (Nat.sub_self k)) fun _ => ⟨rfl, rfl, rfl, rfl⟩

theorem nested_paces (settings : Settings) : Paces tokens g l k (nested settings p) := by
  intro s within least most
  change Paced tokens s _ ((if 0 < settings.maxDepth ∧ settings.maxDepth ≤ s.depth then _ else _ :
    Parse α) s)
  split
  · exact fail_paces _ _ s within least most
  · have first : s.To tokens { s with depth := s.depth + 1 } :=
      .of_same rfl rfl rfl rfl
    have inside : Paces tokens g l k (p >>= fun a => do
        modify fun s => { s with depth := s.depth - 1 }
        return a) :=
      h.bind fun _ a => change_bind (done a (Nat.sub_self k)) fun _ => ⟨rfl, rfl, rfl, rfl⟩
    exact (inside { s with depth := s.depth + 1 } within least most).after first

end Wrappers

theorem functionName_bind {f : Text → Parse β} (hf : ∀ name,
    (Unmarked tokens → ∀ id, name ≠ closureName id) → Paces tokens (max g 1) l k (f name)) :
    Paces tokens g l k (functionName >>= f) := by
  unfold functionName
  rw [bind_assoc]
  refine current_among fun token among => ?_
  split
  · next name =>
    rw [pure_bind]
    refine hf name fun clear => ?_
    rcases among with none | ⟨pos, there⟩
    · cases none
    · exact clear _ there name (.inl rfl)
  · next name =>
    rw [pure_bind]
    refine hf name fun clear => ?_
    rcases among with none | ⟨pos, there⟩
    · cases none
    · exact clear _ there name (.inr rfl)
  · next name =>
    split
    · next known =>
      rw [pure_bind]
      refine hf name fun _ id same => ?_
      cases found : Service.ofText? name with
      | none => simp [found] at known
      | some service =>
        have spelled : service.text = name := by simpa using List.find?_some found
        exact service.text_ne_closureName id (spelled.trans same)
    · exact failed (fun _ => fail_paces _ _) _
  · exact failed (fun _ => fail_paces _ _) _

end Grammar

end Scripting
