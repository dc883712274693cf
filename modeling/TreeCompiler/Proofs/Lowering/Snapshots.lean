/-
Whole runs of a stack of scopes.

Tables are snapshots: a region starts from a copy of the table around it or from nothing, and what
is declared in it is gone when it closes.  Branches and loops rely on that for any nesting, so it is
proved of runs: sequences of operations of any length that open and close regions, declare names and
look them up, some of which may fail.

The argument is about the outermost `d` tables of a stack, `outer d`.  A step that starts with more
than `d` tables does not touch them (`outer_after`), so a run that stays inside a region leaves
everything around the region as it was, and once the region is closed that is all there is.  The
table of the region itself, `tableAt`, only gets the declarations that are made while the region is
the innermost one (`tableAt_run`).

A table holds its bindings together with the declarations they come from.  `Tables` keeps the two
apart, as two functions of which neither knows the other, and the stack answers every run as a stack
of such pairs would (`perform_tables`).  That whatever has a declaration is bound is proved there,
where it can fail.
-/
import TreeCompiler.Proofs.Lowering.Scopes

namespace TreeCompiler.Lowering

open IR (Value)

namespace ScopeStack

/-! ### Operations -/

/-- What can be done with a stack of scopes. -/
inductive Operation where
  | push (cursor : Cursor)
  | pushCopy (cursor : Cursor)
  | pop
  | declare (name : String) (value : Value) (decl : Option DeclId)
  | cursor
  | resolve (name : String)
  | declOf (name : String)
  deriving DecidableEq, Repr

/-- What an operation answers if it succeeds. -/
inductive Reply where
  | done
  /-- The cursor of the innermost region, or of the one that was closed. -/
  | cursor (cursor : Cursor)
  | value (value : Option Value)
  | decl (decl : Option DeclId)
  deriving DecidableEq, Repr

/-- Whether an operation is meant to open a region. -/
def Operation.opens : Operation → Bool
  | .push _ | .pushCopy _ => true
  | _ => false

/-- The binding that an operation makes. -/
def Operation.binding : Operation → List (String × Binding)
  | .declare name value decl => [(name, ⟨value, decl⟩)]
  | _ => []

/-- The answer and the next stack, or an error. -/
def attempt (s : ScopeStack) : Operation → Except LowerError (Reply × ScopeStack)
  | .push c => .ok (.done, s.push c)
  | .pushCopy c => (s.pushCopy c).map (.done, ·)
  | .pop => s.pop.map fun closed => (.cursor closed.1.cursor, closed.2)
  | .declare name value decl => (s.declare name value decl).map (.done, ·)
  | .cursor => s.cursor.map (.cursor ·, s)
  | .resolve name => .ok (.value (s.resolve name), s)
  | .declOf name => .ok (.decl (s.declOf name), s)

/-- Go on after an attempt; after an error, from where it was made. -/
def settle {σ : Type} (s : σ) : Except LowerError (Reply × σ) → Except LowerError Reply × σ
  | .error e => (.error e, s)
  | .ok (reply, t) => (.ok reply, t)

/-- One operation: what it answers, and the stack after it. -/
def perform (s : ScopeStack) (op : Operation) : Except LowerError Reply × ScopeStack :=
  settle s (s.attempt op)

/-- The stack after an operation. -/
def after (s : ScopeStack) (op : Operation) : ScopeStack := (s.perform op).2

/-- The stack after a sequence of operations. -/
def run (s : ScopeStack) : List Operation → ScopeStack
  | [] => s
  | op :: ops => (s.after op).run ops

theorem run_append (s : ScopeStack) (ops ops' : List Operation) :
    s.run (ops ++ ops') = (s.run ops).run ops' := by
  induction ops generalizing s with
  | nil => rfl
  | cons op ops ih => exact ih (s.after op)

/-- The step of lowering that does the same. -/
def Operation.step : Operation → LowerM Unit
  | .push c => pushScope c
  | .pushCopy c => pushScopeCopy c
  | .pop => popScope
  | .declare name value decl => Lowering.declare name value decl
  | .cursor => do let _ ← Lowering.cursor
  | .resolve _ | .declOf _ => return ()

/-- Lowering fails where the operation does, and goes on with the stack that the operation
leaves. -/
theorem outcome_step (l : Lowerer) (op : Operation) :
    outcome op.step l =
      ((l.scopes.perform op).1.map fun _ => (), { l with scopes := (l.scopes.perform op).2 }) := by
  cases op with
  | push c => rfl
  | pushCopy c =>
    simp only [Operation.step, pushScopeCopy, outcome_changeScopes, perform, attempt]
    cases l.scopes.pushCopy c <;> rfl
  | pop =>
    simp only [Operation.step, popScope, outcome_changeScopes, perform, attempt]
    cases l.scopes.pop <;> rfl
  | declare name value decl =>
    simp only [Operation.step, Lowering.declare, outcome_changeScopes, perform, attempt]
    cases l.scopes.declare name value decl <;> rfl
  | cursor =>
    simp only [Operation.step, outcome_bind, Lowering.cursor, outcome_liftScopes, perform, attempt]
    cases l.scopes.cursor <;> rfl
  | resolve name => rfl
  | declOf name => rfl

/-- Only a stack without regions refuses an operation, and then nothing changes. -/
theorem perform_error {s : ScopeStack} {op : Operation} {e : LowerError}
    (h : (s.perform op).1 = .error e) :
    s.scopes = [] ∧ s.after op = s := by
  obtain ⟨scopes⟩ := s
  cases scopes with
  | nil =>
    cases op with
    | push _ | resolve _ | declOf _ => cases h
    | _ => exact ⟨rfl, rfl⟩
  | cons scope rest => cases op <;> cases h

/-- What an operation can do to a stack: open a region, close one, bind a name in the innermost, or
nothing. -/
theorem after_cases (s : ScopeStack) (op : Operation) :
    (op.opens = true ∧ ∃ scope, s.after op = ⟨scope :: s.scopes⟩) ∨
    (op = .pop ∧ ∃ scope, s.scopes = scope :: (s.after op).scopes) ∨
    (∃ scope rest, s.scopes = scope :: rest ∧
      s.after op = ⟨{ scope with bindings := op.binding ++ scope.bindings } :: rest⟩) ∨
    s.scopes = [] ∧ s.after op = s := by
  obtain ⟨scopes⟩ := s
  cases scopes with
  | nil =>
    cases op with
    | push c => exact .inl ⟨rfl, _, rfl⟩
    | _ => exact .inr (.inr (.inr ⟨rfl, rfl⟩))
  | cons scope rest =>
    cases op with
    | push c => exact .inl ⟨rfl, _, rfl⟩
    | pushCopy c => exact .inl ⟨rfl, _, rfl⟩
    | pop => exact .inr (.inl ⟨rfl, _, rfl⟩)
    | _ => exact .inr (.inr (.inl ⟨_, _, rfl, rfl⟩))

/-! ### The tables around a region -/

/-- The outermost `d` regions. -/
def outer (s : ScopeStack) (d : Nat) : ScopeStack := ⟨s.scopes.drop (s.depth - d)⟩

variable {s : ScopeStack} {op : Operation} {ops : List Operation} {d : Nat}

theorem outer_depth (s : ScopeStack) : s.outer s.depth = s := by
  simp [outer]

/-- Another region on top does not count. -/
theorem outer_cons (h : d ≤ s.depth) (scope : Scope) : outer ⟨scope :: s.scopes⟩ d = s.outer d := by
  have hdrop : s.depth + 1 - d = s.depth - d + 1 := Nat.succ_sub h
  simp only [outer, depth] at hdrop ⊢
  simp only [List.length_cons, hdrop, List.drop_succ_cons]

/-- An operation reaches the innermost table at most, so it leaves those alone that have another one
inside. -/
theorem outer_after (h : d < s.depth) (op : Operation) : (s.after op).outer d = s.outer d := by
  rcases after_cases s op with ⟨-, scope, heq⟩ | ⟨-, scope, heq⟩ | ⟨scope, rest, hs, heq⟩ | ⟨-, heq⟩
  · rw [heq]
    exact outer_cons (Nat.le_of_lt h) scope
  · have hs : s = ⟨scope :: (s.after op).scopes⟩ := congrArg ScopeStack.mk heq
    have hd : d ≤ (s.after op).depth := by
      rw [hs] at h
      exact Nat.le_of_lt_succ h
    exact ((congrArg (outer · d) hs).trans (outer_cons hd scope)).symm
  · obtain rfl : s = ⟨scope :: rest⟩ := congrArg ScopeStack.mk hs
    have hd : d ≤ depth ⟨rest⟩ := Nat.le_of_lt_succ h
    rw [heq]
    exact (outer_cons (s := ⟨rest⟩) hd _).trans (outer_cons (s := ⟨rest⟩) hd _).symm
  · rw [heq]

/-- The number of regions changes by one at most. -/
theorem depth_le_depth_after (s : ScopeStack) (op : Operation) :
    s.depth ≤ (s.after op).depth + 1 := by
  rcases after_cases s op with ⟨-, scope, heq⟩ | ⟨-, scope, heq⟩ | ⟨scope, rest, hs, heq⟩ | ⟨-, heq⟩
  · rw [heq]
    exact Nat.le_trans (Nat.le_succ _) (Nat.le_succ _)
  · simp [depth, heq]
  · simp [depth, heq, hs]
  · rw [heq]
    exact Nat.le_succ _

/-- Neither `s` nor any stack that a run from it leads to has `d` regions. -/
def Avoids (d : Nat) : ScopeStack → List Operation → Prop
  | s, [] => s.depth ≠ d
  | s, op :: ops => s.depth ≠ d ∧ Avoids d (s.after op) ops

instance decidableAvoids (d : Nat) :
    ∀ (s : ScopeStack) (ops : List Operation), Decidable (Avoids d s ops)
  | s, [] => inferInstanceAs (Decidable (s.depth ≠ d))
  | s, op :: ops =>
    have := decidableAvoids d (s.after op) ops
    inferInstanceAs (Decidable (_ ∧ _))

/-- Where a run is inside of `d` regions and avoids that number, it is still inside of them after a
step. -/
theorem Avoids.next (h : Avoids d s (op :: ops)) (hd : d < s.depth) :
    d < (s.after op).depth ∧ Avoids d (s.after op) ops := by
  have hnext : d ≤ (s.after op).depth := by
    have := depth_le_depth_after s op
    omega
  have hne : (s.after op).depth ≠ d := by
    cases ops with
    | nil => exact h.2
    | cons _ _ => exact h.2.1
  exact ⟨Nat.lt_of_le_of_ne hnext hne.symm, h.2⟩

theorem Avoids.lt_depth (h : Avoids d s ops) (hd : d < s.depth) : d < (s.run ops).depth := by
  induction ops generalizing s with
  | nil => exact hd
  | cons op ops ih => exact ih (h.next hd).2 (h.next hd).1

/-- **A run inside a region leaves everything around the region alone.** -/
theorem outer_run (h : Avoids d s ops) (hd : d < s.depth) : (s.run ops).outer d = s.outer d := by
  induction ops generalizing s with
  | nil => rfl
  | cons op ops ih => exact (ih (h.next hd).2 (h.next hd).1).trans (outer_after hd op)

/-! ### The table of a region -/

/-- The table of the innermost of the outermost `n` regions. -/
def tableAt (s : ScopeStack) (n : Nat) : List (String × Binding) :=
  (s.outer n).scopes.head?.elim [] (·.bindings)

theorem lookup_outer (s : ScopeStack) (n : Nat) (name : String) :
    (s.outer n).lookup name = (s.tableAt n).lookup name := by
  unfold tableAt lookup
  cases (s.outer n).scopes <;> rfl

/-- What is declared on a run while there are `n` regions, the latest first. -/
def declaredAt (n : Nat) : ScopeStack → List Operation → List (String × Binding)
  | _, [] => []
  | s, op :: ops => declaredAt n (s.after op) ops ++ if s.depth = n then op.binding else []

theorem Operation.binding_of_opens (h : op.opens = true) : op.binding = [] := by
  cases op with
  | push _ | pushCopy _ => rfl
  | _ => cases h

/-- The table of a region that stays open gets what is declared while no other region is inside of
it. -/
theorem tableAt_after (hd : d < s.depth) (hnext : d < (s.after op).depth) :
    (s.after op).tableAt (d + 1)
      = (if s.depth = d + 1 then op.binding else []) ++ s.tableAt (d + 1) := by
  rcases Nat.lt_or_eq_of_le hd with hlt | heq
  · rw [if_neg (Nat.ne_of_gt hlt), tableAt, outer_after hlt, List.nil_append, tableAt]
  · rw [if_pos heq.symm]
    rcases after_cases s op with ⟨hopens, scope, hafter⟩ | ⟨-, scope, hafter⟩
      | ⟨scope, rest, hs, hafter⟩ | ⟨hs, -⟩
    · rw [tableAt, hafter, outer_cons (Nat.le_of_eq heq), Operation.binding_of_opens hopens,
        List.nil_append, tableAt]
    · have hdepth : s.depth = (s.after op).depth + 1 := congrArg List.length hafter
      omega
    · have hdepth : (s.after op).depth = d + 1 := by
        simpa [depth, hafter, hs] using heq.symm
      have houter : (s.after op).outer (d + 1) = s.after op := by
        rw [← hdepth, outer_depth]
      have houter' : s.outer (d + 1) = s := by
        rw [show d + 1 = s.depth from heq, outer_depth]
      rw [tableAt, tableAt, houter, houter', hafter, hs]
      rfl
    · simp [depth, hs] at hd

theorem tableAt_run (h : Avoids d s ops) (hd : d < s.depth) :
    (s.run ops).tableAt (d + 1) = declaredAt (d + 1) s ops ++ s.tableAt (d + 1) := by
  induction ops generalizing s with
  | nil => rfl
  | cons op ops ih =>
    have ⟨hnext, hrest⟩ := h.next hd
    rw [run, ih hrest hnext, tableAt_after hd hnext, declaredAt, List.append_assoc]

/-! ### Regions -/

/-- The operation opens a region: it is a `push`, or a `pushCopy` that succeeds. -/
def Opens (s : ScopeStack) (op : Operation) : Prop := op.opens = true ∧ (s.perform op).1 = .ok .done

/-- What a name is bound to in a region that has just been opened on `s`. -/
def inherited (s : ScopeStack) : Operation → String → Option Binding
  | .pushCopy _, name => s.lookup name
  | _, _ => none

/-- An opened region lies on the stack as it was. -/
theorem Opens.after_eq (h : s.Opens op) :
    ∃ scope, s.after op = ⟨scope :: s.scopes⟩ ∧
      ∀ name, scope.bindings.lookup name = s.inherited op name := by
  obtain ⟨hopens, hdone⟩ := h
  obtain ⟨scopes⟩ := s
  cases op with
  | push c => exact ⟨_, rfl, fun _ => rfl⟩
  | pushCopy c =>
    cases scopes with
    | nil => cases hdone
    | cons scope rest => exact ⟨_, rfl, fun _ => rfl⟩
  | _ => cases hopens

/-- A region seen from inside, in `t`: `enter` opened it on `s`, and `declared` has been declared in
it since. -/
structure Region (s : ScopeStack) (enter : Operation) (declared : List (String × Binding))
    (t : ScopeStack) :
    Prop where
  /-- Everything around the region is as it was. -/
  around : t.outer s.depth = s
  /-- A name that has been declared in the region has its latest binding there. -/
  bound : ∀ name b, declared.lookup name = some b →
    (t.outer (s.depth + 1)).resolve name = some b.value ∧
      (t.outer (s.depth + 1)).declOf name = b.decl
  /-- Any other name is in a copy what it is around the copy. -/
  copied : ∀ c name, enter = .pushCopy c → declared.lookup name = none →
    (t.outer (s.depth + 1)).resolve name = s.resolve name ∧
      (t.outer (s.depth + 1)).declOf name = s.declOf name
  /-- Nothing else is bound in a region that started empty. -/
  fresh : ∀ c name, enter = .push c → declared.lookup name = none →
    (t.outer (s.depth + 1)).resolve name = none ∧ (t.outer (s.depth + 1)).declOf name = none

/-- However a run goes on in a region, the region shows what it started with and what was declared
in it. -/
theorem region_run {enter : Operation} (henter : s.Opens enter)
    (h : Avoids s.depth (s.after enter) ops) :
    s.Region enter (declaredAt (s.depth + 1) (s.after enter) ops) (s.run (enter :: ops)) := by
  obtain ⟨scope, hafter, hscope⟩ := henter.after_eq
  have hdepth : (s.after enter).depth = s.depth + 1 := by
    rw [hafter]
    rfl
  have hd : s.depth < (s.after enter).depth := by
    rw [hdepth]
    exact Nat.lt_succ_self _
  have hstart (name : String) : ((s.after enter).tableAt (s.depth + 1)).lookup name
      = s.inherited enter name := by
    rw [tableAt, ← hdepth, outer_depth, hafter]
    exact hscope name
  have hnames (name : String) : ((s.run (enter :: ops)).outer (s.depth + 1)).lookup name =
      ((declaredAt (s.depth + 1) (s.after enter) ops).lookup name).or (s.inherited enter name) := by
    rw [lookup_outer, run, tableAt_run h hd, List.lookup_append, hstart]
  refine ⟨?_, fun name b hb => ?_, fun c name hcopy hnone => ?_, fun c name hpush hnone => ?_⟩
  · rw [run, outer_run h hd, hafter, outer_cons (Nat.le_refl _), outer_depth]
  · simp [resolve, declOf, hnames, hb]
  · subst hcopy
    simp [resolve, declOf, hnames, hnone, inherited]
  · subst hpush
    simp [resolve, declOf, hnames, hnone, inherited]

/-- Closing a region changes nothing around the regions that were open before, and once they are the
only ones left they are all there is. -/
theorem run_pop {enter : Operation} (henter : s.Opens enter)
    (h : Avoids s.depth (s.after enter) ops) :
    (s.run (enter :: ops ++ [.pop])).outer s.depth = s ∧
      ((s.run (enter :: ops ++ [.pop])).depth = s.depth → s.run (enter :: ops ++ [.pop]) = s) := by
  have hinside : s.depth < (s.run (enter :: ops)).depth := by
    obtain ⟨scope, hafter, -⟩ := henter.after_eq
    refine h.lt_depth ?_
    rw [hafter]
    exact Nat.lt_succ_self _
  have hclosed : (s.run (enter :: ops ++ [.pop])).outer s.depth = s := by
    rw [run_append]
    exact (outer_after hinside .pop).trans (region_run henter h).around
  refine ⟨hclosed, fun hdepth => ?_⟩
  rwa [← hdepth, outer_depth] at hclosed

/-! ### Two tables for each region -/

end ScopeStack

open ScopeStack (Operation Reply settle)

/-- The names of a region in two tables that know nothing of each other: what they are bound to, and
which declarations bound them. -/
structure Tables where
  cursor : Cursor
  values : String → Option Value
  decls : String → Option DeclId

namespace Tables

/-- Bind a name.  Its declaration is entered too, or the entry that it had is removed. -/
def declare (t : Tables) (name : String) (value : Value) (decl : Option DeclId) : Tables :=
  { t with
    values := fun n => if n = name then some value else t.values n
    decls := fun n => if n = name then decl else t.decls n }

/-- The answer and the next stack, or an error. -/
def attempt : List Tables → Operation → Except LowerError (Reply × List Tables)
  | ts, .push c => .ok (.done, ⟨c, fun _ => none, fun _ => none⟩ :: ts)
  | ts, .pushCopy c => match ts with
    | [] => .error .noActiveScope
    | t :: _ => .ok (.done, { t with cursor := c } :: ts)
  | ts, .pop => match ts with
    | [] => .error .scopeUnderflow
    | t :: rest => .ok (.cursor t.cursor, rest)
  | ts, .declare name value decl => match ts with
    | [] => .error .noActiveScope
    | t :: rest => .ok (.done, t.declare name value decl :: rest)
  | ts, .cursor => match ts with
    | [] => .error .noActiveScope
    | t :: _ => .ok (.cursor t.cursor, ts)
  | ts, .resolve name => .ok (.value (ts.head?.bind (·.values name)), ts)
  | ts, .declOf name => .ok (.decl (ts.head?.bind (·.decls name)), ts)

def perform (ts : List Tables) (op : Operation) : Except LowerError Reply × List Tables :=
  settle ts (attempt ts op)

def run (ts : List Tables) : List Operation → List Tables
  | [] => ts
  | op :: ops => run (perform ts op).2 ops

/-- Every name that has a declaration is bound. -/
def Bound (t : Tables) : Prop := ∀ name, (t.decls name).isSome → (t.values name).isSome

theorem Bound.declare {t : Tables} (ht : t.Bound) (name : String) (value : Value)
    (decl : Option DeclId) :
    (t.declare name value decl).Bound := by
  intro n hn
  by_cases heq : n = name
  · simp [Tables.declare, heq]
  · simp only [Tables.declare, if_neg heq] at hn ⊢
    exact ht n hn

theorem bound_perform {ts : List Tables} (hts : ∀ t ∈ ts, t.Bound) (op : Operation) :
    ∀ t ∈ (perform ts op).2, t.Bound := by
  cases op with
  | push c => exact List.forall_mem_cons.mpr ⟨fun _ h => (by cases h), hts⟩
  | resolve name => exact hts
  | declOf name => exact hts
  | pushCopy c =>
    cases ts with
    | nil => exact hts
    | cons t rest => exact List.forall_mem_cons.mpr ⟨(List.forall_mem_cons.mp hts).1, hts⟩
  | pop =>
    cases ts with
    | nil => exact hts
    | cons t rest => exact (List.forall_mem_cons.mp hts).2
  | declare name value decl =>
    cases ts with
    | nil => exact hts
    | cons t rest =>
      have ⟨ht, hrest⟩ := List.forall_mem_cons.mp hts
      exact List.forall_mem_cons.mpr ⟨ht.declare name value decl, hrest⟩
  | cursor => cases ts <;> exact hts

theorem bound_run {ts : List Tables} (hts : ∀ t ∈ ts, t.Bound) (ops : List Operation) :
    ∀ t ∈ run ts ops, t.Bound := by
  induction ops generalizing ts with
  | nil => exact hts
  | cons op ops ih => exact ih (bound_perform hts op)

end Tables

/-- The two tables of a region. -/
def Scope.tables (scope : Scope) : Tables where
  cursor := scope.cursor
  values name := (scope.bindings.lookup name).map (·.value)
  decls name := (scope.bindings.lookup name).bind (·.decl)

theorem Scope.tables_declare (scope : Scope) (name : String) (value : Value)
    (decl : Option DeclId) :
    ({ scope with bindings := (name, ⟨value, decl⟩) :: scope.bindings } : Scope).tables =
      scope.tables.declare name value decl := by
  have hlookup (n : String) : ((name, (⟨value, decl⟩ : Binding)) :: scope.bindings).lookup n =
      if n = name then some ⟨value, decl⟩ else scope.bindings.lookup n :=
    ScopeStack.lookup_of_declare (a := ⟨[scope]⟩) rfl n
  simp only [Scope.tables, Tables.declare, hlookup, Tables.mk.injEq, true_and]
  refine ⟨funext fun n => ?_, funext fun n => ?_⟩ <;> split <;> rfl

namespace ScopeStack

def tables (s : ScopeStack) : List Tables := s.scopes.map Scope.tables

/-- **A stack of scopes answers like a stack of two separate tables for each region.** -/
theorem perform_tables (s : ScopeStack) (op : Operation) :
    Tables.perform s.tables op = ((s.perform op).1, (s.perform op).2.tables) := by
  obtain ⟨scopes⟩ := s
  cases op with
  | push c => rfl
  | pushCopy c => cases scopes <;> rfl
  | pop => cases scopes <;> rfl
  | declare name value decl =>
    cases scopes with
    | nil => rfl
    | cons scope rest =>
      show (Except.ok Reply.done, scope.tables.declare name value decl :: rest.map Scope.tables) = _
      rw [← Scope.tables_declare]
      rfl
  | cursor => cases scopes <;> rfl
  | resolve name => cases scopes <;> rfl
  | declOf name => cases scopes <;> rfl

theorem run_tables (s : ScopeStack) (ops : List Operation) :
    Tables.run s.tables ops = (s.run ops).tables := by
  induction ops generalizing s with
  | nil => rfl
  | cons op ops ih =>
    rw [Tables.run, perform_tables]
    exact ih (s.after op)

/-- **Regions are snapshots.**  Take any stack `s` and any sequence of operations that opens a
region on it, stays inside that region (there are never as many regions as `s` has) and ends by
closing a region.  All along, the region shows the names it started with, those of `s` for a copy
and none otherwise, except where they have been declared in it since.  Whatever else is opened,
declared and closed, all regions of `s` are as they were, and if the last one that is closed is the
one that was opened first, the stack is `s` again.  An operation can only fail if no region is open,
and it leaves the stack, and the whole state of lowering, as they were.  From an empty stack every
run keeps the same names as two separate tables for each region would, and there a name that has a
declaration is always bound. -/
theorem regions_snapshot (s : ScopeStack) :
    (∀ enter ops, s.Opens enter → Avoids s.depth (s.after enter) ops →
      s.Region enter (declaredAt (s.depth + 1) (s.after enter) ops) (s.run (enter :: ops)) ∧
      (s.run (enter :: ops ++ [.pop])).outer s.depth = s ∧
      ((s.run (enter :: ops ++ [.pop])).depth = s.depth → s.run (enter :: ops ++ [.pop]) = s)) ∧
    (∀ op e, (s.perform op).1 = .error e → s.scopes = [] ∧ (s.perform op).2 = s) ∧
    (∀ (l : Lowerer) op e, l.scopes = s → (outcome (Operation.step op) l).1 = .error e →
      (outcome (Operation.step op) l).2 = l) ∧
    ∀ ops, (({} : ScopeStack).run ops).tables = Tables.run [] ops ∧
      ∀ scope ∈ (({} : ScopeStack).run ops).scopes, ∀ name,
        (scope.tables.decls name).isSome → (scope.tables.values name).isSome := by
  refine ⟨fun enter ops henter h => ⟨region_run henter h, run_pop henter h⟩,
    fun op e he => perform_error he,
    fun l op e hl he => ?_, fun ops => ⟨(run_tables {} ops).symm, fun scope hscope => ?_⟩⟩
  · rw [outcome_step] at he ⊢
    rcases hreply : (l.scopes.perform op).1 with e' | reply
    · have hsame : (l.scopes.perform op).2 = l.scopes := (perform_error hreply).2
      rw [hsame]
    · rw [hreply] at he
      cases he
  · have hbound : ∀ t ∈ (({} : ScopeStack).run ops).tables, t.Bound := by
      rw [← run_tables]
      exact Tables.bound_run (fun _ h => (by cases h)) ops
    exact hbound _ (List.mem_map_of_mem hscope)

/-- In a copy `x` is declared anew and `y` for the first time, and an empty region is opened and
closed.  Inside, `x` has its new value and `z` the one that it was copied with; afterwards the stack
is the one before. -/
theorem regions_snapshot_copy :
    let s : ScopeStack :=
      ⟨[{ cursor := ⟨0, 0⟩, bindings := [("x", ⟨.param 0, some 0⟩), ("z", ⟨.param 1, none⟩)] }]⟩
    let enter : Operation := .pushCopy ⟨0, 1⟩
    let ops : List Operation :=
      [.declare "x" (.inst 3) (some 1), .push ⟨1, 0⟩, .declare "z" (.inst 0) none, .pop,
        .declare "y" (.inst 4) none]
    s.Opens enter ∧ Avoids s.depth (s.after enter) ops ∧
      ((s.run (enter :: ops)).outer 2).resolve "x" = some (.inst 3) ∧
      ((s.run (enter :: ops)).outer 2).resolve "z" = s.resolve "z" ∧
      s.run (enter :: ops ++ [.pop]) = s := by
  intro s enter ops
  have henter : s.Opens enter := ⟨rfl, rfl⟩
  have hinside : Avoids s.depth (s.after enter) ops := by decide
  obtain ⟨hregion, -, hclosed⟩ := (regions_snapshot s).1 enter ops henter hinside
  exact ⟨henter, hinside, (hregion.bound "x" ⟨.inst 3, some 1⟩ (by decide)).1,
    (hregion.copied _ "z" rfl (by decide)).1, hclosed (by decide)⟩

/-- Closing a region need not close the one that was opened first: of two regions that are opened
one after the other only the second is closed, so there is one region more than before, although the
number of regions never came back to that of the start on the way. -/
theorem regions_snapshot_unclosed :
    let s : ScopeStack := ⟨[{ cursor := ⟨0, 0⟩ }]⟩
    let enter : Operation := .push ⟨0, 1⟩
    let ops : List Operation := [.push ⟨0, 2⟩]
    s.Opens enter ∧ Avoids s.depth (s.after enter) ops ∧
      (s.run (enter :: ops ++ [.pop])).depth = s.depth + 1 ∧
      (s.perform .cursor).1 = .ok (.cursor ⟨0, 0⟩) ∧
      ((s.run (enter :: ops ++ [.pop])).perform .cursor).1 = .ok (.cursor ⟨0, 1⟩) ∧
      s.run (enter :: ops ++ [.pop]) ≠ s := by
  exact ⟨⟨rfl, rfl⟩, by decide, rfl, rfl, rfl, by decide⟩

end ScopeStack

end TreeCompiler.Lowering
