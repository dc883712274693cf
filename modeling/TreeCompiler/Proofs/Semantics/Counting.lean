/-
Loops that count.

A loop whose bounds are integers runs its body once for each integer from the first bound to the
second one, in ascending order, and goes on behind it (`lowerProgram_loops_count`).  The counter is
a double all the time, so the integers must be small enough for doubles to count with.

A loop is tested after its body.  If its second bound is less than the first, the body therefore
runs once, with the first bound.

A round of a loop is the way from the start of its block back to a start of a block.  What it needs
to know at the start is what the phi will give (`Poised`), and this is also what it knows about the
next round when it ends (`exists_round`).
-/
import Mathlib.Data.Int.Range
import Mathlib.Data.List.Forall2
import TreeCompiler.Proofs.IR.Verified
import TreeCompiler.Proofs.Lowering.Loops
import TreeCompiler.Proofs.Semantics.Doubles
import TreeCompiler.Proofs.Semantics.Steps

namespace TreeCompiler.Semantics

open IR (FuncId BlockId InstId Value Op)
open Lowering (LoopSite Hosts Lowered Options lowerProgram opsAt)
open Program (Block NodeId Loop)

/-! ### Rounds -/

/-- A state in the block of a loop, in a round with this value of the counter. -/
structure Within (site : LoopSite) (i : Int) (j : Nat) (state : Frame × World) : Prop where
  block : state.1.block = site.header
  position : state.1.position = j
  counter : 0 < j → state.1.results.lookup site.counter = some (.float (.ofInt i))

/-- One time through the block of a loop. -/
def Round (site : LoopSite) (i : Int) (states : List (Frame × World)) : Prop :=
  List.Forall₂ (Within site i) (List.range site.code.length) states

/-- The values of the counter in a loop from `a` to `b`. -/
def counted (a b : Int) : List Int := if a ≤ b then Int.range a (b + 1) else [a]

theorem counted_of_le {a b : Int} (h : b ≤ a) : counted a b = [a] := by
  rcases Int.lt_or_eq_of_le h with hlt | rfl
  · exact if_neg (by omega)
  · simp [counted, Int.range]

theorem counted_of_lt {a b : Int} (h : a < b) : counted a b = a :: counted (a + 1) b := by
  have hcount : (b + 1 - a).toNat = (b + 1 - (a + 1)).toNat + 1 := by omega
  rw [counted, counted, if_pos (by omega), if_pos (by omega), Int.range, Int.range, hcount,
    List.range_succ_eq_map, List.map_cons, List.map_map]
  refine congrArg₂ List.cons (Int.add_zero a) (List.map_congr_left ?_)
  intro n _
  simp only [Function.comp_apply]
  omega

section Loop

variable (p : Primitives) (m : IR.Module) (args : List Val) (site : LoopSite)

/-- A run never gets stuck in the body of a loop. -/
def Unstuck (a : Frame × World) : Prop :=
  ∀ {states : List (Frame × World)} {frame : Frame} {w : World},
    Passes p m (m.function site.func) args a states (frame, w) → frame.block = site.header →
      0 < frame.position → frame.position ≤ site.body.length →
        ∃ next, Step p m (m.function site.func) args (frame, w) next

/-- What a run from `a` does at a loop: after the states in `lead` it goes round once for each of
these values, and gets to the block after the loop. -/
inductive Circles (a : Frame × World) (lead : List (Frame × World)) (values : List Int) : Prop
  | intro (rounds : List (List (Frame × World))) (exit : Frame × World)
      (passes : Passes p m (m.function site.func) args a (lead ++ rounds.flatten) exit)
      (runs : ∃ least, ∀ fuel, least ≤ fuel →
        run p m (fuel + (lead ++ rounds.flatten).length) (m.function site.func) args a.1 a.2
          = run p m fuel (m.function site.func) args exit.1 exit.2)
      (each : List.Forall₂ (Round site) values rounds)
      (block : exit.1.block = site.after) (source : exit.1.source = some site.header)
      (position : exit.1.position = 0)

/-- A run is at the start of a round with this value of the counter. -/
structure Poised (i : Int) (frame : Frame) : Prop where
  block : frame.block = site.header
  position : frame.position = 0
  input : ∀ invoke w, perform p m invoke args frame w
    (.phi [(site.start, site.before), (.inst site.next, site.header)])
      = some (.result (.float (.ofInt i)), w)

/-- A site with the code of a loop from `a` to `b` with a straight body. -/
structure CountingSite (a b : Int) : Prop where
  code : opsAt m site.inside = site.code
  start : site.start = .float (.ofInt a)
  bound : site.bound = .float (.ofInt b)
  bounding : site.bounding = []
  body : ∀ entry ∈ site.body, entry.2.isTerminator = false
  increasing : (site.code.map (·.1)).Pairwise (· < ·)
  before_ne : site.before ≠ site.header

/-- The part of a round from the `j`th instruction on, `n` instructions long. -/
structure Proceeds (i : Int) (j n : Nat) (a : Frame × World) (states : List (Frame × World))
    (c : Frame × World) : Prop where
  passes : Passes p m (m.function site.func) args a states c
  each : List.Forall₂ (Within site i) (List.range' j n) states

variable {p m args site} {a b i : Int} {j n n' : Nat} {s t u : Frame × World} {frame : Frame}
  {w w' : World} {states states' : List (Frame × World)}

theorem Unstuck.after (h : Unstuck p m args site s)
    (hp : Passes p m (m.function site.func) args s states t) :
    Unstuck p m args site t :=
  fun hpasses => h (hp.append hpasses)

theorem Proceeds.trans (h : Proceeds p m args site i j n s states t)
    (h' : Proceeds p m args site i (j + n) n' t states' u) :
    Proceeds p m args site i j (n + n') s (states ++ states') u := by
  refine ⟨h.passes.append h'.passes, ?_⟩
  rw [← List.range'_append_1]
  exact List.rel_append h.each h'.each

theorem Proceeds.single (hs : Within site i j s)
    (hstep : Step p m (m.function site.func) args s t) :
    Proceeds p m args site i j 1 s [s] t :=
  ⟨.single hstep, .cons hs .nil⟩

theorem Within.record (h : Within site i j (frame, w)) (hj : 0 < j) {k : InstId}
    (hk : site.counter ≠ k) (v : Val) : Within site i (j + 1) (frame.record k v, w') := by
  refine ⟨h.block, congrArg (· + 1) h.position, ?_⟩
  intro _
  exact (lookup_record_ne hk frame v).trans (h.counter hj)

/-- The body begins behind the counter. -/
theorem getElem?_body (hcode : opsAt m site.inside = site.code) (hj : j < site.body.length) :
    ((m.function site.func).ops site.header)[j + 1]? = some (site.body.get ⟨j, hj⟩) := by
  rw [show (m.function site.func).ops site.header = _ from hcode, LoopSite.code]
  simp [List.getElem?_append_left hj]

namespace CountingSite

section

variable (hsite : CountingSite m site a b)
include hsite

theorem ops : (m.function site.func).ops site.header =
    (site.counter, .phi [(site.start, site.before), (.inst site.next, site.header)]) ::
      (site.body ++ [site.advancing, (site.test, .fcmp .ole (.inst site.next) site.bound),
        (site.branch, .condBr (.inst site.test) site.header site.after)]) := by
  refine hsite.code.trans ?_
  rw [LoopSite.code, hsite.bounding, List.nil_append]

theorem length_code : site.code.length = 1 + (site.body.length + 3) := by
  rw [LoopSite.code, hsite.bounding]
  simp
  omega

/-- The counter has the least number of all instructions in the loop. -/
theorem counter_lt {entry : InstId × Op}
    (h : entry ∈ site.body ++ [site.advancing, (site.test, .fcmp .ole (.inst site.next) site.bound),
      (site.branch, .condBr (.inst site.test) site.header
        site.after)]) : site.counter < entry.1 := by
  have hincreasing := hsite.increasing
  rw [← hsite.code, show opsAt m site.inside = _ from hsite.ops, List.map_cons] at hincreasing
  exact (List.pairwise_cons.mp hincreasing).1 entry.1 (List.mem_map_of_mem h)

theorem next_lt : site.next < site.test := by
  have hincreasing := hsite.increasing
  rw [← hsite.code, show opsAt m site.inside = _ from hsite.ops, List.map_cons, List.map_append]
    at hincreasing
  have hlast := (List.pairwise_append.mp (List.pairwise_cons.mp hincreasing).2).2.1
  exact (List.pairwise_cons.mp hlast).1 site.test (by simp)

/-! ### The steps of a round -/

/-- The phi gives the value of the counter. -/
theorem step_counter (h : Poised p m args site i frame) (w : World) :
    Step p m (m.function site.func) args (frame, w)
      (frame.record site.counter (.float (.ofInt i)), w) := by
  refine .result ?_ (performs_of_forall fun invoke => h.input invoke w)
  rw [h.block, h.position, hsite.ops]
  rfl

/-- The body is executed from its first to its last instruction, and the counter stays what it
is. -/
theorem exists_body (hs : Within site i (j + 1) s) (hlength : j + n = site.body.length)
    (hgo : Unstuck p m args site s) :
    ∃ states t, Proceeds p m args site i (j + 1) n s states t ∧
      Within site i (site.body.length + 1) t := by
  induction n generalizing j s with
  | zero =>
    obtain rfl : j = site.body.length := hlength
    exact ⟨[], s, ⟨.nil s, .nil⟩, hs⟩
  | succ n ih =>
    obtain ⟨frame, w⟩ := s
    have hlt : j < site.body.length := by omega
    have hmem := List.get_mem site.body ⟨j, hlt⟩
    have hentry := getElem?_body hsite.code hlt
    rw [← hs.block, ← hs.position] at hentry
    -- The one step whose outcome is not known.  It is no terminator, so it goes on to the next
    -- position.
    obtain ⟨next, hstep⟩ := hgo (.nil _) hs.block (hs.position ▸ Nat.succ_pos j) (hs.position ▸ hlt)
    obtain ⟨v, w', rfl⟩ := hstep.result_of_not_isTerminator hentry (hsite.body _ hmem)
    have hne := Nat.ne_of_lt (hsite.counter_lt (List.mem_append_left _ hmem))
    have hnext : Within site i (j + 1 + 1) (frame.record _ v, w') :=
      hs.record (Nat.succ_pos j) hne v
    obtain ⟨states, t, hproceeds, ht⟩ := ih hnext (by omega) (hgo.after (.single hstep))
    rw [Nat.add_comm n]
    exact ⟨_, t, (Proceeds.single hs hstep).trans hproceeds, ht⟩

theorem step_next (hp : p.Counts) (hi : i.natAbs < 2 ^ 53)
    (hs : Within site i (site.body.length + 1) (frame, w)) :
    Step p m (m.function site.func) args (frame, w)
      (frame.record site.next (.float (.ofInt (i + 1))), w) := by
  have here : ((m.function site.func).ops frame.block)[frame.position]? = some site.advancing := by
    rw [hs.block, hs.position, hsite.ops]
    simp
  refine .result here (performs_of_forall ?_)
  intro invoke
  have hcounter : frame.value? m args (.inst site.counter) = some (.float (.ofInt i)) :=
    hs.counter (Nat.succ_pos _)
  have hone : frame.value? m args (.float .one) = some (.float .one) := rfl
  simp [perform, hcounter, hone, Primitives.arith, hp.add_one hi]

theorem step_test (hp : p.Counts) (hi : i.natAbs ≤ 2 ^ 53) (hb : b.natAbs ≤ 2 ^ 53)
    (hs : frame.block = site.header) (hposition : frame.position = site.body.length + 1 + 1)
    (hnext : frame.results.lookup site.next = some (.float (.ofInt i))) :
    Step p m (m.function site.func) args (frame, w)
      (frame.record site.test (.bool (decide (i ≤ b))), w) := by
  have here : ((m.function site.func).ops frame.block)[frame.position]?
      = some (site.test, .fcmp .ole (.inst site.next) site.bound) := by
    rw [hs, hposition, hsite.ops]
    simp
  refine .result here (performs_of_forall ?_)
  intro invoke
  have hvalue : frame.value? m args (.inst site.next) = some (.float (.ofInt i)) := hnext
  have hbound : frame.value? m args site.bound = some (.float (.ofInt b)) := by
    rw [hsite.bound]
    rfl
  simp [perform, hvalue, hbound, Primitives.compare, hp.le hi hb]

theorem step_branch {c : Bool} (hs : frame.block = site.header)
    (hposition : frame.position = site.body.length + 1 + 1 + 1)
    (htest : frame.results.lookup site.test = some (.bool c)) :
    Step p m (m.function site.func) args (frame, w)
      (frame.jump (if c then site.header else site.after), w) := by
  have here : ((m.function site.func).ops frame.block)[frame.position]?
      = some (site.branch, .condBr (.inst site.test) site.header site.after) := by
    rw [hs, hposition, hsite.ops]
    simp
  refine .jump here (performs_of_forall ?_)
  intro invoke
  have hvalue : frame.value? m args (.inst site.test) = some (.bool c) := htest
  simp [perform, hvalue]

/-- Coming from the end of the loop, the phi takes the next value. -/
theorem poised_again (hs : frame.block = site.header)
    (hnext : frame.results.lookup site.next = some (.float (.ofInt i))) :
    Poised p m args site i (frame.jump site.header) := by
  refine ⟨rfl, rfl, ?_⟩
  intro invoke w
  have hvalue : (frame.jump site.header).value? m args (.inst site.next)
      = some (.float (.ofInt i)) := hnext
  have hsource : (frame.jump site.header).source = some site.header := congrArg some hs
  simp [perform, hsource, hsite.before_ne, hvalue]

/-- Coming from before the loop, the phi takes the first bound. -/
theorem poised_first (hs : frame.block = site.before) :
    Poised p m args site a (frame.jump site.header) := by
  refine ⟨rfl, rfl, ?_⟩
  intro invoke w
  have hvalue : (frame.jump site.header).value? m args site.start = some (.float (.ofInt a)) := by
    rw [hsite.start]
    rfl
  have hsource : (frame.jump site.header).source = some site.before := congrArg some hs
  simp [perform, hsource, hvalue]

/-- After the body comes the test.  If the next value is not above the bound, the run is at the
start of the next round then, and behind the loop otherwise. -/
theorem exists_turn (hp : p.Counts) (hi : i.natAbs < 2 ^ 53) (hb : b.natAbs ≤ 2 ^ 53)
    (hs : Within site i (site.body.length + 1) (frame, w)) :
    ∃ states frame', Proceeds p m args site i (site.body.length + 1) 3 (frame, w) states
      (frame', w) ∧
      (i < b → Poised p m args site (i + 1) frame') ∧
      (b ≤ i → frame'.block = site.after ∧ frame'.source = some site.header ∧
        frame'.position = 0) := by
  have hadvancing : site.counter < site.next :=
    hsite.counter_lt (List.mem_append_right _ List.mem_cons_self)
  -- The states before the test and before the branch; neither of the new results hides the counter.
  have hs₁ : Within site i (site.body.length + 1 + 1)
      (frame.record site.next (.float (.ofInt (i + 1))), w) :=
    hs.record (Nat.succ_pos _) (Nat.ne_of_lt hadvancing) _
  have hs₂ : Within site i (site.body.length + 1 + 1 + 1)
      ((frame.record site.next (.float (.ofInt (i + 1)))).record site.test
        (.bool (decide (i + 1 ≤ b))), w) :=
    hs₁.record (Nat.succ_pos _) (Nat.ne_of_lt (Nat.lt_trans hadvancing hsite.next_lt)) _
  have hnext := lookup_record_self frame site.next (.float (.ofInt (i + 1)))
  have htest := lookup_record_self (frame.record site.next (.float (.ofInt (i + 1)))) site.test
    (.bool (decide (i + 1 ≤ b)))
  have hproceeds : Proceeds p m args site i (site.body.length + 1) 3 (frame, w) _ _ :=
    ((Proceeds.single hs (hsite.step_next hp hi hs)).trans
      (.single hs₁ (hsite.step_test hp (by omega) hb hs₁.block hs₁.position hnext))).trans
        (.single hs₂ (hsite.step_branch hs₂.block hs₂.position htest))
  refine ⟨_, _, hproceeds, ?_, ?_⟩
  · intro hlt
    rw [if_pos (decide_eq_true (show i + 1 ≤ b from hlt))]
    exact hsite.poised_again hs₂.block
      ((lookup_record_ne (Nat.ne_of_lt hsite.next_lt) _ _).trans hnext)
  · intro hle
    have hnot : ¬ decide (i + 1 ≤ b) = true := by
      rw [decide_eq_true_iff]
      omega
    exact ⟨if_neg hnot, congrArg some hs₂.block, rfl⟩

/-- **One round.**  A run that is at the start of a round goes through the block of the loop. -/
theorem exists_round (hp : p.Counts) (hi : i.natAbs < 2 ^ 53) (hb : b.natAbs ≤ 2 ^ 53)
    (h : Poised p m args site i frame) (hgo : Unstuck p m args site (frame, w)) :
    ∃ states frame' w', Passes p m (m.function site.func) args (frame, w) states (frame', w') ∧
      Round site i states ∧ (i < b → Poised p m args site (i + 1) frame') ∧
      (b ≤ i → frame'.block = site.after ∧ frame'.source = some site.header ∧
        frame'.position = 0) := by
  have hstart : Within site i 0 (frame, w) :=
    ⟨h.block, h.position, fun hj => absurd hj (Nat.lt_irrefl 0)⟩
  have hfirst := hsite.step_counter h w
  have hinside : Within site i (0 + 1) (frame.record site.counter (.float (.ofInt i)), w) :=
    ⟨h.block, congrArg (· + 1) h.position, fun _ => lookup_record_self _ _ _⟩
  obtain ⟨states, ⟨frame₁, w₁⟩, hbody, h₁⟩ :=
    hsite.exists_body hinside (Nat.zero_add _) (hgo.after (.single hfirst))
  obtain ⟨states', frame', hturn, hagain, hleaves⟩ := hsite.exists_turn hp hi hb h₁
  have hround := (Proceeds.single hstart hfirst).trans (hbody.trans (Nat.add_comm _ 1 ▸ hturn))
  refine ⟨_, frame', w₁, hround.passes, ?_, hagain, hleaves⟩
  rw [Round, hsite.length_code, List.range_eq_range']
  exact hround.each

/-- **All rounds.**  One after the other, they go up to the bound. -/
theorem circles (hp : p.Counts) (hi : i.natAbs < 2 ^ 53) (hb : b.natAbs < 2 ^ 53)
    (h : Poised p m args site i frame) (hgo : Unstuck p m args site (frame, w)) :
    Circles p m args site (frame, w) [] (counted i b) := by
  -- What decreases is the distance to the bound, which is zero if the bounds are the wrong way
  -- round.
  induction hn : (b - i).toNat generalizing i frame w with
  | zero =>
    obtain ⟨states, frame', w', hpasses, hround, -, hleaves⟩ :=
      hsite.exists_round hp hi (Nat.le_of_lt hb) h hgo
    obtain ⟨hblock, hsource, hposition⟩ := hleaves (by omega)
    have hall : Passes p m (m.function site.func) args (frame, w) [states].flatten
        (frame', w') := by
      simpa using hpasses
    rw [counted_of_le (by omega)]
    exact .intro [states] (frame', w') hall hall.run_eq (.cons hround .nil) hblock hsource hposition
  | succ n ih =>
    obtain ⟨states, frame', w', hpasses, hround, hagain, -⟩ :=
      hsite.exists_round hp hi (Nat.le_of_lt hb) h hgo
    obtain ⟨rounds, exit, hrest, -, heach, hblock, hsource, hposition⟩ :=
      ih (by omega) (hagain (by omega)) (hgo.after hpasses) (by omega)
    have hall := hpasses.append hrest
    rw [counted_of_lt (by omega)]
    exact .intro (states :: rounds) exit hall hall.run_eq (.cons hround heach) hblock
      hsource hposition

end

end CountingSite

theorem Circles.prepend {lead : List (Frame × World)} {values : List Int}
    (h : Circles p m args site t lead values)
    (hp : Passes p m (m.function site.func) args s states t) :
    Circles p m args site s (states ++ lead) values := by
  obtain ⟨rounds, exit, hpasses, -, heach, hblock, hsource, hposition⟩ := h
  have hall := hp.append hpasses
  rw [← List.append_assoc] at hall
  exact .intro rounds exit hall hall.run_eq heach hblock hsource hposition

/-! ### Loops in a program -/

/-- In a verified module a loop is straight. -/
theorem not_isTerminator_of_hosts {l : Loop} (h : Hosts m l site) (hverify : m.verify = []) :
    ∀ entry ∈ site.body, entry.2.isTerminator = false := by
  intro entry hentry
  have hinside := h.has.2.1
  have hops : ((m.function site.func).blockInsts site.header).map (·.2.op)
      = site.code.map (·.2) := by
    rw [← h.code, opsAt, IR.Function.ops, List.map_map]
    rfl
  have hshape : IR.checkShape (site.code.map (·.2)) = [] := by
    rw [← hops]
    exact (IR.Module.verify_eq_nil_iff.mp hverify _ (IR.Module.function_mem hinside.1) site.header
      hinside.2).1
  obtain ⟨before, after, hsplit⟩ := List.append_of_mem hentry
  rcases hop : entry.2.isTerminator with - | -
  · rfl
  · rw [LoopSite.code, hsplit, List.append_assoc, List.map_cons, List.map_append,
      ← List.cons_append] at hshape
    have hnil := IR.eq_nil_of_checkShape hshape hop
    simp at hnil

/-- The site of a loop between integers. -/
theorem countingSite_of_hosts {l : Loop} (h : Hosts m l site) (hverify : m.verify = [])
    (hplaced : (m.function site.func).Placement) {id id' : NodeId}
    (hstart : l.start = .double id (.ofInt a)) (hlimit : l.limit = .double id' (.ofInt b)) :
    CountingSite m site a b where
  code := h.code
  start := h.renders.start_eq hstart
  bound := (h.renders.bound_eq hlimit).1
  bounding := (h.renders.bound_eq hlimit).2
  body := not_isTerminator_of_hosts h hverify
  increasing := by
    rw [← h.code, show (opsAt m site.inside).map (·.1) = _ from hplaced.map_ops site.header]
    exact hplaced.increasing _
  before_ne := Nat.ne_of_lt h.before_lt

/-- Behind the phi of a loop its result is at hand. -/
def HasCounter (site : LoopSite) (frame : Frame) : Prop :=
  frame.block = site.header → 0 < frame.position → ∃ v, frame.results.lookup site.counter = some v

theorem Step.hasCounter (hcode : opsAt m site.inside = site.code)
    (h : Step p m (m.function site.func) args s t) (hs : HasCounter site s.1) :
    HasCounter site t.1 := by
  cases h with
  | jump here effect => exact fun _ hpos => absurd hpos (Nat.lt_irrefl 0)
  | @result frame w w' k op v here effect =>
    intro hblock _
    by_cases hk : site.counter = k
    · exact ⟨v, hk ▸ lookup_record_self frame k v⟩
    · rw [lookup_record_ne hk]
      refine hs hblock (Nat.pos_of_ne_zero ?_)
      -- The first instruction of the loop is its phi.
      intro hzero
      rw [show frame.block = site.header from hblock, hzero,
        show (m.function site.func).ops site.header = _ from hcode] at here
      cases here
      exact hk rfl

theorem Passes.hasCounter (hcode : opsAt m site.inside = site.code)
    (h : Passes p m (m.function site.func) args s states t) (hs : HasCounter site s.1) :
    HasCounter site t.1 := by
  induction h with
  | nil => exact hs
  | cons step _ ih => exact ih (step.hasCounter hcode hs)

/-- Printing the counter does not get stuck. -/
theorem unstuck_of_prints (hcode : opsAt m site.inside = site.code) {func : FuncId}
    (hname : (m.function func).name = "printf")
    (hprint : ∀ values, ∃ text, p.print values = some text)
    (hbody : ∀ entry ∈ site.body, ∃ id < m.globals.length,
      entry.2 = .call func [.global id, .inst site.counter])
    (hs : s.1.block ≠ site.header) : Unstuck p m args site s := by
  intro states frame w hpasses hblock hpos hle
  obtain ⟨v, hv⟩ := hpasses.hasCounter hcode (fun heq => absurd heq hs) hblock hpos
  obtain ⟨j, hj⟩ := Nat.exists_eq_add_of_lt hpos
  rw [Nat.zero_add] at hj
  have hlt : j < site.body.length := by omega
  have here := getElem?_body hcode hlt
  rw [← hblock, ← hj] at here
  obtain ⟨id, hid, hop⟩ := hbody _ (List.get_mem site.body ⟨j, hlt⟩)
  obtain ⟨text, htext⟩ := hprint [.str m.globals[id].text, v]
  have hcall : Performs p m args frame w (site.body.get ⟨j, hlt⟩).2 (.result (.int 0))
      { w with output := w.output ++ text } := by
    refine ⟨0, ?_⟩
    intro fuel _
    rw [hop]
    simp [perform, invoke, hname, Frame.value?, List.getElem?_eq_getElem hid, hv, htext]
  exact ⟨_, .result here hcall⟩

end Loop

/-- **Counting loops count.**  Take a program that lowers without an error to a module that the
verifier accepts.  Each loop in it has a place of its own in the module.  If its bounds are integers
`a` and `b` that doubles can count with, then from the jump into the loop on, whatever the frame,
the arguments and the memory, and provided that the body does not get stuck, the run goes through
the body once for each integer from `a` to `b`, upwards, with the counter at this integer, and is at
the start of the block after the loop then.  For `b < a` it goes through the body once, with the
counter at `a`. -/
theorem lowerProgram_loops_count {root : Block} {options : Options} {lowered : Lowered}
    (h : lowerProgram root options = .ok lowered) (herrors : lowered.errors = [])
    (hverify : lowered.code.verify = []) (print : List Val → Option String) :
    ∃ places : List (Loop × LoopSite), places.map (·.1) = root.loops ∧
      places.Pairwise (fun x y => x.2.inside ≠ y.2.inside) ∧
      ∀ place ∈ places, Hosts lowered.code place.1 place.2 ∧
        ∀ (id id' : NodeId) (a b : Int), place.1.start = .double id (.ofInt a) →
          place.1.limit = .double id' (.ofInt b) → a.natAbs < 2 ^ 53 → b.natAbs < 2 ^ 53 →
            ∀ (args : List Val) (frame : Frame) (w : World), frame.block = place.2.before →
              frame.position = place.2.entry →
                Unstuck (.ieee print) lowered.code args place.2 (frame, w) →
                Circles (.ieee print) lowered.code args place.2 (frame, w) [(frame, w)]
                  (if a ≤ b then Int.range a (b + 1) else [a]) := by
  obtain ⟨places, hloops, hhosts, -, hdistinct⟩ := Lowering.lowerProgram_houses h herrors
  refine ⟨places, hloops, hdistinct, ?_⟩
  intro place hplace
  have hhost := hhosts place hplace
  refine ⟨hhost, ?_⟩
  intro id id' a b hstart hlimit ha hb args frame w hblock hposition hgo
  have hplaced := (Lowering.lowerProgram_laid h hhost.has.2.1.1).1.placement
  have hsite := countingSite_of_hosts hhost hverify hplaced hstart hlimit
  obtain ⟨k, hk⟩ := hhost.enters
  have hjump : Step (.ieee print) lowered.code (lowered.code.function place.2.func) args (frame, w)
      (frame.jump place.2.header, w) :=
    .jump (by rw [hblock, hposition]; exact hk) (performs_of_forall fun invoke => rfl)
  have hcircles := hsite.circles (ieee_counts print) ha hb (hsite.poised_first hblock)
    (hgo.after (.single hjump))
  exact hcircles.prepend (.single hjump)

/-- A loop that prints its counter. -/
def printingLoop (a b : Int) : Loop where
  start := .double 1 (.ofInt a)
  limit := .double 2 (.ofInt b)
  body := .mk 3 [.expr 4 (.call 5 "printf" [.string 6 "\"%.0f,\"", .ident 7 "i"])]

/-- Two loops, of which the second one has its bounds the wrong way round. -/
def upAndDown : Block :=
  .mk 0 [.expr 1 (.ifElse 2 (.binary 3 .lt (.double 4 .zero) (.double 5 .one))
    (.mk 6 [.expr 7 (.loop 8 (printingLoop 1 3).start (printingLoop 1 3).limit
    (printingLoop 1 3).body)])
    (.mk 9 [.expr 10 (.loop 11 (printingLoop 2 1).start (printingLoop 2 1).limit
    (printingLoop 2 1).body)]))]

/-- A run before the jump into a loop. -/
def beforeLoop (site : LoopSite) :
    Frame × World := ({ block := site.before, position := site.entry }, {})

theorem lowerProgram_loops_count_upAndDown :
    ∃ lowered up down, lowerProgram upAndDown {} = .ok lowered ∧ lowered.errors = [] ∧
      lowered.code.verify = [] ∧
      Hosts lowered.code (printingLoop 1 3) up ∧ Hosts lowered.code (printingLoop 2 1) down ∧
      up.inside ≠ down.inside ∧
      Circles (.ieee fun _ => some "") lowered.code [] up
        (beforeLoop up) [beforeLoop up] [1, 2, 3] ∧
      Circles (.ieee fun _ => some "") lowered.code [] down
        (beforeLoop down) [beforeLoop down] [2] := by
  have hrun : (match lowerProgram upAndDown {} with
      | .ok lowered => decide (lowered.errors = [] ∧ lowered.code.verify = [] ∧
          (lowered.code.function 0).name = "printf" ∧ lowered.code.globals.length = 3 ∧
          ∀ func < lowered.code.functions.length,
            ∀ block < (lowered.code.function func).blocks.length,
            ∀ first ∈ ((lowered.code.function func).ops block).take 1,
              ∀ entry ∈ (((lowered.code.function func).ops block).drop
                1).dropLast.dropLast.dropLast,
                entry.2 = .call 0 [.global 1, .inst first.1] ∨
                  entry.2 = .call 0 [.global 2, .inst first.1])
      | .error _ => false) = true := by decide +kernel
  rcases h : lowerProgram upAndDown {} with e | lowered
  · simp [h] at hrun
  · simp only [h, decide_eq_true_eq] at hrun
    obtain ⟨herrors, hverify, hname, hglobals, hprints⟩ := hrun
    -- What a loop here has between its counter and the last three instructions prints the counter.
    have hgo : ∀ {l : Loop} {site : LoopSite} {x : Double} (id : NodeId), l.limit = .double id x →
        Hosts lowered.code l site →
          Unstuck (.ieee fun _ => some "") lowered.code [] site (beforeLoop site) := by
      intro l site x id hlimit hhost
      refine unstuck_of_prints hhost.code hname (fun _ => ⟨_, rfl⟩) ?_
        (Nat.ne_of_lt hhost.before_lt)
      intro entry hentry
      have hprints' := hprints site.func hhost.has.2.1.1 site.header hhost.has.2.1.2
      rw [show (lowered.code.function site.func).ops site.header = _ from hhost.code, LoopSite.code,
        (hhost.renders.bound_eq hlimit).2] at hprints'
      rw [hglobals]
      rcases hprints' _ List.mem_cons_self entry (by simpa using hentry) with hbody | hbody
      · exact ⟨1, by decide, hbody⟩
      · exact ⟨2, by decide, hbody⟩
    obtain ⟨places, hloops, hdistinct, hplaces⟩ :=
      lowerProgram_loops_count h herrors hverify fun _ => some ""
    rw [show upAndDown.loops = [printingLoop 1 3, printingLoop 2 1] from rfl] at hloops
    obtain ⟨⟨l, up⟩, rest, rfl, rfl, hrest⟩ := List.map_eq_cons_iff.mp hloops
    obtain ⟨⟨l, down⟩, rest', rfl, rfl, -⟩ := List.map_eq_cons_iff.mp hrest
    obtain ⟨hup, hcount⟩ := hplaces _ List.mem_cons_self
    obtain ⟨hdown, hcount'⟩ := hplaces _ (List.mem_cons_of_mem _ List.mem_cons_self)
    refine ⟨lowered, up, down, rfl, herrors, hverify, hup, hdown, ?_, ?_, ?_⟩
    · exact (List.pairwise_cons.mp hdistinct).1 _ List.mem_cons_self
    · exact hcount 1 2 1 3 rfl rfl (by decide) (by decide) [] _ {} rfl rfl (hgo 2 rfl hup)
    · exact hcount' 1 2 2 1 rfl rfl (by decide) (by decide) [] _ {} rfl rfl (hgo 2 rfl hdown)

end TreeCompiler.Semantics
