/-
Steps of code generation that refuse exactly what they have to.

Code generation stops at the first thing it has no code for.  To say exactly when that happens, each
step gets a condition that is known beforehand, from the function alone.  `Refuses V Q x s` says of
a step `x` taken in a state `s`: it ends with a refusal if `V` holds, and otherwise it succeeds and
`Q` holds of its result and of the state after it.

The rules follow the way steps are put together.  A sequence refuses if one of its parts does, and a
loop refuses if the step for one of the items does; what the steps before have established is the
invariant of the loop.
-/
import Mathlib.Logic.Basic
import TreeCompiler.Target.Error

namespace TreeCompiler.Target

variable {σ α β : Type} {V W : Prop} {Q R : α → σ → Prop} {s : σ}

/-- A step refuses if `V` holds; otherwise it succeeds, and `Q` holds after it. -/
inductive Refuses (V : Prop) (Q : α → σ → Prop) (x : StateT σ (Except CodegenError) α) (s : σ) :
    Prop
  | accepted {a : α} {t : σ} (hx : x.run s = .ok (a, t)) (hv : ¬ V) (hq : Q a t)
  | refused {u : Unsupported} (hx : x.run s = .error (.ofUnsupported u)) (hv : V)

namespace Refuses

variable {x : StateT σ (Except CodegenError) α}

/-- A step that never refuses. -/
theorem of_ok {a : α} {t : σ} (hx : x.run s = .ok (a, t)) (hq : Q a t) : Refuses False Q x s :=
  .accepted hx not_false hq

theorem pure {a : α} (h : Q a s) : Refuses False Q (pure a) s := of_ok rfl h

theorem congr (h : Refuses V Q x s) (hvw : V ↔ W) : Refuses W Q x s := by
  cases h with
  | accepted hx hv hq => exact .accepted hx (mt hvw.mpr hv) hq
  | refused hx hv => exact .refused hx (hvw.mp hv)

theorem of_not (h : Refuses False Q x s) (hv : ¬ V) : Refuses V Q x s :=
  h.congr (iff_of_false not_false hv)

/-- After a step that was not refused it is known that there was no reason to. -/
theorem and_not (h : Refuses V Q x s) : Refuses V (fun a t => ¬ V ∧ Q a t) x s := by
  cases h with
  | accepted hx hv hq => exact .accepted hx hv ⟨hv, hq⟩
  | refused hx hv => exact .refused hx hv

theorem mono (h : Refuses V Q x s) (hqr : ∀ a t, Q a t → R a t) : Refuses V R x s := by
  cases h with
  | accepted hx hv hq => exact .accepted hx hv (hqr _ _ hq)
  | refused hx hv => exact .refused hx hv

theorem bind {k : α → StateT σ (Except CodegenError) β} {R : β → σ → Prop} (hx : Refuses V Q x s)
    (hk : ∀ a t, Q a t → Refuses W R (k a) t) : Refuses (V ∨ W) R (x >>= k) s := by
  cases hx with
  | @accepted a t hok hv hq =>
    have hrun : (x >>= k).run s = (k a).run t := by
      rw [StateT.run_bind, hok]
      rfl
    cases hk a t hq with
    | accepted hok' hw hr => exact .accepted (hrun.trans hok') (not_or.mpr ⟨hv, hw⟩) hr
    | refused herr hw => exact .refused (hrun.trans herr) (.inr hw)
  | @refused u herr hv =>
    have hrun : (x >>= k).run s = .error (.ofUnsupported u) := by
      rw [StateT.run_bind, herr]
      rfl
    exact .refused hrun (.inl hv)

/-- A sequence whose first part never refuses. -/
theorem bind_right {k : α → StateT σ (Except CodegenError) β} {R : β → σ → Prop}
    (hx : Refuses False Q x s) (hk : ∀ a t, Q a t → Refuses W R (k a) t) :
    Refuses W R (x >>= k) s :=
  (hx.bind hk).congr (by simp)

/-- A sequence whose last part never refuses. -/
theorem bind_left {k : α → StateT σ (Except CodegenError) β} {R : β → σ → Prop}
    (hx : Refuses V Q x s) (hk : ∀ a t, Q a t → Refuses False R (k a) t) :
    Refuses V R (x >>= k) s :=
  (hx.bind hk).congr (by simp)

theorem get_bind {k : σ → StateT σ (Except CodegenError) α} (h : Refuses V Q (k s) s) :
    Refuses V Q (get >>= k) s :=
  bind_right (of_ok (Q := fun a t => a = s ∧ t = s) rfl ⟨rfl, rfl⟩)
    (by rintro _ _ ⟨rfl, rfl⟩; exact h)

theorem modify {g : σ → σ} {Q : PUnit → σ → Prop} (h : Q ⟨⟩ (g s)) : Refuses False Q (modify g) s :=
  of_ok rfl h

/-! ### Loops -/

variable {k : α → StateT σ (Except CodegenError) β}

/-- A loop with results, after some of its items.  `I` is what holds then. -/
theorem mapM_from {I : List α → σ → Prop} {V : α → Prop} (done xs : List α)
    (hstep : ∀ before x after, done ++ xs = before ++ x :: after → ∀ t, I before t →
      Refuses (V x) (fun _ t' => I (before ++ [x]) t') (k x) t) (h : I done s) :
    Refuses (∃ x ∈ xs, V x) (fun ys t => ys.length = xs.length ∧ I (done ++ xs) t)
      (xs.mapM k) s := by
  induction xs generalizing done s with
  | nil => exact .accepted rfl (by simp) ⟨rfl, by rwa [List.append_nil]⟩
  | cons x xs ih =>
    have hrest : ∀ t, I (done ++ [x]) t → Refuses (∃ x ∈ xs, V x)
        (fun ys t => ys.length = xs.length ∧ I (done ++ x :: xs) t) (xs.mapM k) t := by
      intro t ht
      have hlater := ih (s := t) (done ++ [x]) (by simpa using hstep) ht
      simpa using hlater
    rw [List.mapM_cons]
    have hall := (hstep done x xs rfl s h).bind fun b t ht => (hrest t ht).bind_left
      (R := fun ys t => ys.length = (x :: xs).length ∧ I (done ++ x :: xs) t) fun ys t' ht' =>
        .pure (a := b :: ys) ⟨by simp [ht'.1], ht'.2⟩
    exact hall.congr (by simp)

theorem mapM {I : List α → σ → Prop} {V : α → Prop} {xs : List α}
    (hstep : ∀ before x after, xs = before ++ x :: after → ∀ t, I before t →
      Refuses (V x) (fun _ t' => I (before ++ [x]) t') (k x) t) (h : I [] s) :
    Refuses (∃ x ∈ xs, V x) (fun ys t => ys.length = xs.length ∧ I xs t) (xs.mapM k) s :=
  mapM_from [] xs hstep h

/-- A loop none of whose steps refuses. -/
theorem mapM_accepted {I : List α → σ → Prop} {xs : List α}
    (hstep : ∀ before x after, xs = before ++ x :: after → ∀ t, I before t →
      Refuses False (fun _ t' => I (before ++ [x]) t') (k x) t) (h : I [] s) :
    Refuses False (fun ys t => ys.length = xs.length ∧ I xs t) (xs.mapM k) s :=
  (mapM (V := fun _ => False) hstep h).congr (by simp)

/-- A loop without results, after some of its items. -/
theorem forM_from {k : α → StateT σ (Except CodegenError) PUnit} {I : List α → σ → Prop}
    {V : α → Prop} (done xs : List α)
    (hstep : ∀ before x after, done ++ xs = before ++ x :: after → ∀ t, I before t →
      Refuses (V x) (fun _ t' => I (before ++ [x]) t') (k x) t) (h : I done s) :
    Refuses (∃ x ∈ xs, V x) (fun _ t => I (done ++ xs) t) (xs.forM k) s := by
  induction xs generalizing done s with
  | nil => exact .accepted rfl (by simp) (by rwa [List.append_nil])
  | cons x xs ih =>
    have hrest : ∀ t, I (done ++ [x]) t →
        Refuses (∃ x ∈ xs, V x) (fun _ t => I (done ++ x :: xs) t) (xs.forM k) t := by
      intro t ht
      have hlater := ih (s := t) (done ++ [x]) (by simpa using hstep) ht
      simpa using hlater
    exact ((hstep done x xs rfl s h).bind fun _ t ht => hrest t ht).congr (by simp)

theorem forM {k : α → StateT σ (Except CodegenError) PUnit} {I : List α → σ → Prop} {V : α → Prop}
    {xs : List α}
    (hstep : ∀ before x after, xs = before ++ x :: after → ∀ t, I before t →
      Refuses (V x) (fun _ t' => I (before ++ [x]) t') (k x) t) (h : I [] s) :
    Refuses (∃ x ∈ xs, V x) (fun _ t => I xs t) (xs.forM k) s :=
  forM_from [] xs hstep h

end Refuses

end TreeCompiler.Target
