/-
Which name is suggested.

The search keeps the best candidate so far, and a candidate takes its place only by being strictly
closer.  So the answer is the foremost candidate: the first of those that have the least distance
among all that are eligible.  `Best` says this of the candidates that were looked at, one more
candidate keeps it, and a whole list then does.

A candidate is measured only if it passes a test first, and the search is looked at for any such
test (`closerOf`).  A stricter test changes the answer if and only if it turns down the answer of
the other.  That settles what the comparison of sizes does.  Counted in characters it would turn
down nothing: every edit makes a text longer or shorter by at most one, so no text is closer than
the difference of the lengths.  The program counts bytes, and an edit can add or take away up to
four of them.
-/
import TreeCompiler.Proofs.Diagnostic.EditDistance

namespace TreeCompiler.Diagnostic

variable {name c : String} {seen candidates : List String}

/-! ### The foremost candidate -/

/-- The first of the candidates with property `p` that have the least distance to a name. -/
def Foremost (p : String → Prop) (name : String) (candidates : List String) (c : String) : Prop :=
  ∃ before after, candidates = before ++ c :: after ∧ p c ∧
    (∀ x ∈ before, p x → editDistance name c < editDistance name x) ∧
    ∀ x ∈ after, p x → editDistance name c ≤ editDistance name x

namespace Foremost

variable {p q : String → Prop}

theorem prop (h : Foremost p name candidates c) : p c := by
  obtain ⟨_, _, -, hc, -⟩ := h
  exact hc

theorem mem (h : Foremost p name candidates c) : c ∈ candidates := by
  obtain ⟨before, after, rfl, -⟩ := h
  simp

theorem le (h : Foremost p name candidates c) {x : String} (hx : x ∈ candidates) (hpx : p x) :
    editDistance name c ≤ editDistance name x := by
  obtain ⟨before, after, rfl, -, hbefore, hafter⟩ := h
  rcases List.mem_append.mp hx with hx | hx
  · exact Nat.le_of_lt (hbefore x hx hpx)
  · rcases List.mem_cons.mp hx with rfl | hx
    · exact Nat.le_refl _
    · exact hafter x hx hpx

/-- There is one foremost candidate.  Of two, the one further on is strictly closer than the other,
which is not further away. -/
theorem unique {c' : String} (h : Foremost p name candidates c)
    (h' : Foremost p name candidates c') : c = c' := by
  obtain ⟨before, after, hsplit, hc, hbefore, hafter⟩ := id h
  obtain ⟨before', after', hsplit', hc', hbefore', hafter'⟩ := id h'
  rw [hsplit, List.append_eq_append_iff] at hsplit'
  rcases hsplit' with ⟨more, rfl, hmore⟩ | ⟨more, rfl, hmore⟩
  · cases more with
    | nil => exact (List.cons.inj hmore).1
    | cons y more =>
      obtain ⟨rfl, -⟩ := List.cons.inj hmore
      have hlt := hbefore' c (by simp) hc
      have hle := h.le h'.mem hc'
      omega
  · cases more with
    | nil => exact (List.cons.inj hmore).1.symm
    | cons y more =>
      obtain ⟨rfl, -⟩ := List.cons.inj hmore
      have hlt := hbefore c' (by simp) hc'
      have hle := h'.le h.mem hc
      omega

/-- A candidate stays foremost among fewer, if it is one of them. -/
theorem restrict (h : Foremost p name candidates c) (hqp : ∀ x, q x → p x) (hc : q c) :
    Foremost q name candidates c := by
  obtain ⟨before, after, hsplit, -, hbefore, hafter⟩ := h
  exact ⟨before, after, hsplit, hc, fun x hx hqx => hbefore x hx (hqp x hqx),
    fun x hx hqx => hafter x hx (hqp x hqx)⟩

/-- A candidate stays foremost when one is added that is not closer. -/
theorem snoc (h : Foremost p name seen c) {x : String}
    (hx : p x → editDistance name c ≤ editDistance name x) :
    Foremost p name (seen ++ [x]) c := by
  obtain ⟨before, after, rfl, hc, hbefore, hafter⟩ := h
  refine ⟨before, after ++ [x], by simp, hc, hbefore, fun y hy hpy => ?_⟩
  rcases List.mem_append.mp hy with hy | hy
  · exact hafter y hy hpy
  · cases List.mem_singleton.mp hy
    exact hx hpy

/-- A candidate that is added becomes foremost by being strictly closer than all before it. -/
theorem last {x : String} (hx : p x)
    (hlt : ∀ y ∈ seen, p y → editDistance name x < editDistance name y) :
    Foremost p name (seen ++ [x]) x :=
  ⟨seen, [], rfl, hx, hlt, by simp⟩

/-- Among more candidates the same one is foremost, or one of the new ones that is strictly closer
than all before. -/
theorem of_append {more : List String} (h : Foremost p name (candidates ++ more) c) :
    Foremost p name candidates c ∨ c ∈ more ∧ ∀ x ∈ candidates, p x →
      editDistance name c < editDistance name x := by
  obtain ⟨before, after, hsplit, hc, hbefore, hafter⟩ := h
  rcases List.append_eq_append_iff.mp hsplit with ⟨new, rfl, rfl⟩ | ⟨old, rfl, hold⟩
  · exact .inr ⟨by simp, fun x hx => hbefore x (List.mem_append_left new hx)⟩
  · cases old with
    | nil =>
      rw [List.nil_append] at hold
      subst hold
      exact .inr ⟨by simp, fun x hx => hbefore x (by simpa using hx)⟩
    | cons y old =>
      obtain ⟨rfl, rfl⟩ := List.cons.inj hold
      exact .inl ⟨before, old, rfl, hc, hbefore,
        fun x hx => hafter x (List.mem_append_left more hx)⟩

end Foremost

/-! ### The search, for any test -/

/-- Keep the better of the best name so far and one more candidate, which is measured only if it
passes a test. -/
def closerOf (worth : String → Bool) (name : String) (best : Option (String × Nat))
    (candidate : String) :
    Option (String × Nat) :=
  if worth candidate then
    let distance := editDistance name candidate
    if distance ≤ maxDistance name && best.all fun b => decide (distance < b.2)
      then some (candidate, distance)
    else best
  else best

/-- The candidate closest to a name, among those that pass a test and are close enough. -/
def closestOf (worth : String → Bool) (name : String) (candidates : List String) : Option String :=
  (candidates.foldl (closerOf worth name) none).map (·.1)

/-- The suggestion in words. -/
def didYouMeanOf (worth : String → Bool) (name : String) (candidates : List String) :
    Option String :=
  (closestOf worth name candidates).map fun found => "did you mean `" ++ found ++ "`?"

theorem closest?_eq (name : String) (candidates : List String) :
    closest? name candidates = closestOf (isCandidate name) name candidates := by
  have hcloser : closer name = closerOf (isCandidate name) name := by
    funext best candidate
    cases best <;> rfl
  rw [closest?, closestOf, hcloser]

theorem didYouMean_eq (name : String) (candidates : List String) :
    didYouMean name candidates = didYouMeanOf (isCandidate name) name candidates := by
  rw [didYouMean, didYouMeanOf, closest?_eq]

/-- A candidate that is measured and found close enough. -/
def Near (worth : String → Bool) (name candidate : String) : Prop :=
  worth candidate = true ∧ editDistance name candidate ≤ maxDistance name

section Search

variable {worth worth' : String → Bool} {best : Option (String × Nat)} {x : String}

theorem closerOf_of_not_near (h : ¬Near worth name x) : closerOf worth name best x = best := by
  unfold closerOf
  split
  · rename_i hworth
    have hfar : ¬editDistance name x ≤ maxDistance name := fun hle => h ⟨hworth, hle⟩
    simp [hfar]
  · rfl

theorem closerOf_of_near (h : Near worth name x) : closerOf worth name best x =
    if best.all fun b => decide (editDistance name x < b.2) then some (x, editDistance name x)
      else best := by
  simp [closerOf, h.1, h.2]

/-- What the search keeps, after some candidates: nothing if none of them is near, and else the
foremost with its distance. -/
inductive Best (worth : String → Bool) (name : String) (seen : List String) :
    Option (String × Nat) → Prop
  | none (h : ∀ x ∈ seen, ¬Near worth name x) : Best worth name seen none
  | some {c : String} (h : Foremost (Near worth name) name seen c) :
    Best worth name seen (some (c, editDistance name c))

theorem Best.step (h : Best worth name seen best) (x : String) :
    Best worth name (seen ++ [x]) (closerOf worth name best x) := by
  by_cases hnear : Near worth name x
  · rw [closerOf_of_near hnear]
    cases h with
    | none hnone => exact .some (.last hnear fun y hy hpy => absurd hpy (hnone y hy))
    | @some c hc =>
      by_cases hlt : editDistance name x < editDistance name c
      · rw [if_pos (by simpa using hlt)]
        exact .some (.last hnear fun y hy hpy => Nat.lt_of_lt_of_le hlt (hc.le hy hpy))
      · rw [if_neg (by simpa using hlt)]
        exact .some (hc.snoc fun _ => Nat.le_of_not_lt hlt)
  · rw [closerOf_of_not_near hnear]
    cases h with
    | none hnone =>
      refine .none fun y hy => ?_
      rcases List.mem_append.mp hy with hy | hy
      · exact hnone y hy
      · cases List.mem_singleton.mp hy
        exact hnear
    | some hc => exact .some (hc.snoc fun hx => absurd hx hnear)

theorem Best.foldl (h : Best worth name seen best) (more : List String) :
    Best worth name (seen ++ more) (more.foldl (closerOf worth name) best) := by
  induction more generalizing seen best with
  | nil => rwa [List.append_nil]
  | cons x more ih =>
    have hstep := ih (h.step x)
    rwa [List.append_assoc, List.singleton_append] at hstep

/-- The search finds nothing because nothing is near, or it finds the foremost of what is. -/
theorem closestOf_cases (worth : String → Bool) (name : String) (candidates : List String) :
    (closestOf worth name candidates = none ∧ ∀ x ∈ candidates, ¬Near worth name x) ∨
    ∃ c, closestOf worth name candidates = some c ∧
      Foremost (Near worth name) name candidates c := by
  have hstart : Best worth name [] none := .none fun x hx => absurd hx List.not_mem_nil
  have hbest := hstart.foldl candidates
  rw [List.nil_append] at hbest
  unfold closestOf
  generalize candidates.foldl (closerOf worth name) none = best at hbest
  cases hbest with
  | none hnone => exact .inl ⟨rfl, hnone⟩
  | @some c hc => exact .inr ⟨c, rfl, hc⟩

theorem closestOf_eq_none_iff :
    closestOf worth name candidates = none ↔ ∀ x ∈ candidates, ¬Near worth name x := by
  rcases closestOf_cases worth name candidates with ⟨heq, hnone⟩ | ⟨c, heq, hc⟩
  · exact iff_of_true heq hnone
  · exact iff_of_false (by simp [heq]) fun hnone => hnone c hc.mem hc.prop

theorem closestOf_eq_some_iff :
    closestOf worth name candidates = some c ↔ Foremost (Near worth name) name candidates c := by
  rcases closestOf_cases worth name candidates with ⟨heq, hnone⟩ | ⟨c', heq, hc'⟩
  · exact iff_of_false (by simp [heq]) fun hc => hnone c hc.mem hc.prop
  · rw [heq, Option.some.injEq]
    exact ⟨fun h => h ▸ hc', hc'.unique⟩

/-- A stricter test does not change the answer if and only if the answer passes it. -/
theorem closestOf_eq_closestOf_iff (hstrict : ∀ x, worth' x = true → worth x = true) :
    closestOf worth' name candidates = closestOf worth name candidates ↔
      ∀ c, closestOf worth name candidates = some c → worth' c = true := by
  constructor
  · intro heq c hc
    rw [← heq, closestOf_eq_some_iff] at hc
    exact hc.prop.1
  · intro hpass
    have hnear : ∀ x, Near worth' name x → Near worth name x := fun x hx => ⟨hstrict x hx.1, hx.2⟩
    cases hanswer : closestOf worth name candidates with
    | none =>
      rw [closestOf_eq_none_iff] at hanswer ⊢
      exact fun x hx h => hanswer x hx (hnear x h)
    | some c =>
      have hworth := hpass c hanswer
      rw [closestOf_eq_some_iff] at hanswer ⊢
      exact hanswer.restrict hnear ⟨hworth, hanswer.prop.2⟩

/-- Suggestions are the same if and only if they name the same candidate. -/
theorem didYouMeanOf_eq_didYouMeanOf_iff :
    didYouMeanOf worth' name candidates = didYouMeanOf worth name candidates ↔
    closestOf worth' name candidates = closestOf worth name candidates := by
  have hwords : Function.Injective fun found : String => "did you mean `" ++ found ++ "`?" := by
    intro a b h
    simpa using h
  exact (Option.map_injective hwords).eq_iff

end Search

/-! ### The suggestion -/

/-- How many edits away a suggestion may be, for a name of some length in characters. -/
def reach : (length : Nat) → Nat
  | 0 | 1 | 2 => 1
  | 3 | 4 | 5 => 2
  | _ => 3

theorem maxDistance_eq_reach (name : String) : maxDistance name = reach name.length := by
  unfold maxDistance
  generalize name.length = n
  rcases n with _ | _ | _ | _ | _ | _ | n <;> simp [reach]

/-- Whether the sizes of two texts differ by at most `most`. -/
def SimilarSize (size : String → Nat) (most : Nat) (a b : String) : Prop :=
  size a ≤ size b + most ∧ size b ≤ size a + most

instance (size : String → Nat) (most : Nat) (a b : String) :
    Decidable (SimilarSize size most a b) :=
  inferInstanceAs (Decidable (_ ∧ _))

/-- A candidate that may be suggested for a name: it is another name, of about the same size in
bytes, and a few edits away. -/
structure Eligible (name candidate : String) : Prop where
  other : candidate ≠ name
  size : SimilarSize String.utf8ByteSize (reach name.length) name candidate
  near : editDistance name candidate ≤ reach name.length

theorem isCandidate_iff : isCandidate name c = true ↔
    c ≠ name ∧ SimilarSize String.utf8ByteSize (reach name.length) name c := by
  simp only [isCandidate, Bool.and_eq_true, decide_eq_true_eq, SimilarSize, maxDistance_eq_reach]
  refine and_congr_right fun _ => ?_
  omega

theorem near_isCandidate (name : String) : Near (isCandidate name) name = Eligible name := by
  funext c
  rw [Near, isCandidate_iff, maxDistance_eq_reach]
  exact propext ⟨fun h => ⟨h.1.1, h.1.2, h.2⟩, fun h => ⟨⟨h.other, h.size⟩, h.near⟩⟩

theorem didYouMean_eq_none_iff :
    didYouMean name candidates = none ↔ ∀ c ∈ candidates, ¬Eligible name c := by
  rw [didYouMean_eq, didYouMeanOf, Option.map_eq_none_iff, closestOf_eq_none_iff, near_isCandidate]

theorem didYouMean_eq_some_iff {words : String} : didYouMean name candidates = some words ↔
    ∃ c, Foremost (Eligible name) name candidates c ∧ words = "did you mean `" ++ c ++ "`?" := by
  simp only [didYouMean_eq, didYouMeanOf, Option.map_eq_some_iff, closestOf_eq_some_iff,
    near_isCandidate, eq_comm (a := words)]

theorem didYouMean_append (name : String) (candidates more : List String) :
    didYouMean name (candidates ++ more) = didYouMean name candidates ∨
    ∃ c ∈ more, Eligible name c ∧
      (∀ x ∈ candidates, Eligible name x → editDistance name c < editDistance name x) ∧
      didYouMean name (candidates ++ more) = some ("did you mean `" ++ c ++ "`?") := by
  cases hall : didYouMean name (candidates ++ more) with
  | none =>
    have hnone := didYouMean_eq_none_iff.mp hall
    exact .inl (didYouMean_eq_none_iff.mpr fun c hc => hnone c (List.mem_append_left more hc)).symm
  | some words =>
    obtain ⟨c, hc, rfl⟩ := didYouMean_eq_some_iff.mp hall
    rcases hc.of_append with hold | ⟨hnew, hcloser⟩
    · exact .inl (didYouMean_eq_some_iff.mpr ⟨c, hold, rfl⟩).symm
    · exact .inr ⟨c, hnew, hc.prop, hcloser, rfl⟩

/-- Nothing is suggested if and only if no candidate is eligible, and else the foremost eligible
candidate is.  Candidates that are appended leave the suggestion as it is, unless one of them is
strictly closer than every eligible one before. -/
theorem didYouMean_foremost (name : String) (candidates : List String) :
    (didYouMean name candidates = none ↔ ∀ c ∈ candidates, ¬Eligible name c) ∧
    (∀ words, didYouMean name candidates = some words ↔
      ∃ c, Foremost (Eligible name) name candidates c ∧ words = "did you mean `" ++ c ++ "`?") ∧
    ∀ more, didYouMean name (candidates ++ more) = didYouMean name candidates ∨
      ∃ c ∈ more, Eligible name c ∧
        (∀ x ∈ candidates, Eligible name x → editDistance name c < editDistance name x) ∧
        didYouMean name (candidates ++ more) = some ("did you mean `" ++ c ++ "`?") :=
  ⟨didYouMean_eq_none_iff, fun _ => didYouMean_eq_some_iff, didYouMean_append name candidates⟩

-- Both are one edit away, and the first stays.
example : didYouMean "foo" ["foo", "fob", "fox"] = some "did you mean `fob`?" := by decide +kernel

/-! ### What the comparison of sizes does -/

/-- A text is at least as many edits away as the lengths differ. -/
theorem similarSize_length (a b : String) : SimilarSize String.length (editDistance a b) a b := by
  obtain ⟨script, hrun, hlength⟩ := exists_run?_editDistance a b
  have hsizes := Edit.length_run? hrun
  rw [hlength, String.length_toList, String.length_toList] at hsizes
  exact hsizes.symm

theorem SimilarSize.mono {size : String → Nat} {most most' : Nat} {a b : String}
    (h : SimilarSize size most a b) (hle : most ≤ most') : SimilarSize size most' a b := by
  unfold SimilarSize at h ⊢
  omega

/-- The test that is left when sizes are not compared. -/
def isOther (name candidate : String) : Bool := decide (candidate ≠ name)

theorem didYouMean_eq_didYouMeanOf_isOther_iff :
    didYouMean name candidates = didYouMeanOf (isOther name) name candidates ↔
    ∀ c, closestOf (isOther name) name candidates = some c →
      SimilarSize String.utf8ByteSize (reach name.length) name c := by
  have hstrict : ∀ x, isCandidate name x = true → isOther name x = true := fun x hx =>
    decide_eq_true (isCandidate_iff.mp hx).1
  rw [didYouMean_eq, didYouMeanOf_eq_didYouMeanOf_iff, closestOf_eq_closestOf_iff hstrict]
  refine forall₂_congr fun c hc => ?_
  have hother : c ≠ name := of_decide_eq_true (closestOf_eq_some_iff.mp hc).prop.1
  rw [isCandidate_iff, and_iff_right hother]

/-- What is close enough to be suggested has about the same length. -/
theorem similarSize_of_closestOf {worth : String → Bool}
    (h : closestOf worth name candidates = some c) :
    SimilarSize String.length (reach name.length) name c := by
  have hnear := (closestOf_eq_some_iff.mp h).prop.2
  rw [maxDistance_eq_reach] at hnear
  exact (similarSize_length name c).mono hnear

theorem didYouMeanOf_length_eq (name : String) (candidates : List String) :
    didYouMeanOf (fun c => isOther name c &&
        decide (SimilarSize String.length (reach name.length) name c)) name candidates
      = didYouMeanOf (isOther name) name candidates := by
  rw [didYouMeanOf_eq_didYouMeanOf_iff, closestOf_eq_closestOf_iff fun x hx =>
    (Bool.and_eq_true_iff.mp hx).1]
  intro c hc
  rw [(closestOf_eq_some_iff.mp hc).prop.1, decide_eq_true (similarSize_of_closestOf hc),
    Bool.and_self]

/-- Where every character is one byte, sizes are lengths. -/
theorem didYouMean_eq_of_oneByte (hbytes : ∀ s ∈ name :: candidates, s.utf8ByteSize = s.length) :
    didYouMean name candidates = didYouMeanOf (isOther name) name candidates := by
  refine didYouMean_eq_didYouMeanOf_isOther_iff.mpr fun c hc => ?_
  have hmem := (closestOf_eq_some_iff.mp hc).mem
  rw [SimilarSize, hbytes name List.mem_cons_self, hbytes c (List.mem_cons_of_mem name hmem)]
  exact similarSize_of_closestOf hc

/-- The comparison of sizes changes the suggestion if and only if, without it, a candidate would be
suggested whose size in bytes is too different.  It would change no suggestion if characters were
counted, and it changes none where every character is one byte. -/
theorem didYouMean_sizeTest (name : String) (candidates : List String) :
    (didYouMean name candidates = didYouMeanOf (isOther name) name candidates ↔
      ∀ c, closestOf (isOther name) name candidates = some c →
        SimilarSize String.utf8ByteSize (reach name.length) name c) ∧
    didYouMeanOf (fun c => isOther name c &&
        decide (SimilarSize String.length (reach name.length) name c)) name candidates
      = didYouMeanOf (isOther name) name candidates ∧
    ((∀ s ∈ name :: candidates, s.utf8ByteSize = s.length) →
      didYouMean name candidates = didYouMeanOf (isOther name) name candidates) :=
  ⟨didYouMean_eq_didYouMeanOf_isOther_iff, didYouMeanOf_length_eq name candidates,
    didYouMean_eq_of_oneByte⟩

/-- A name that lacks one character of three bytes gets no suggestion, although it is one edit
away. -/
theorem didYouMean_sizeTest_wideCharacter :
    closestOf (isOther "日本") "日本" ["日本語"] = some "日本語" ∧
    ¬SimilarSize String.utf8ByteSize (reach "日本".length) "日本" "日本語" ∧
    didYouMean "日本" ["日本語"] = none ∧
    didYouMean "日本" ["日本語"] ≠ didYouMeanOf (isOther "日本") "日本" ["日本語"] := by
  have hclosest : closestOf (isOther "日本") "日本" ["日本語"] = some "日本語" := by decide +kernel
  have hsize : ¬SimilarSize String.utf8ByteSize (reach "日本".length) "日本" "日本語" := by decide +kernel
  refine ⟨hclosest, hsize, by decide +kernel, fun heq => hsize ?_⟩
  exact (didYouMean_sizeTest "日本" ["日本語"]).1.mp heq "日本語" hclosest

end TreeCompiler.Diagnostic
