import WukongSdk.Runs

/-!
# Progress

What a system has passed through, and what it can still attain from a state. A
goal is attained where every state short of it can come to one of smaller
measure, and counted steps that spend a measure are no more than the measure
allows.
-/
namespace WukongSdk

variable {σ ℓ : Type*} {step : σ → ℓ → Option σ} {ok ok' : σ → ℓ → Prop} {P Q : σ → Prop}
  {s t : σ} {l : ℓ}

/-- The labels lead from `s` through a state with `P`. -/
def Once (step : σ → ℓ → Option σ) (ok : σ → ℓ → Prop) (s : σ) (labels : List ℓ) (P : σ → Prop) :
    Prop :=
  ∃ before after t, labels = before ++ after ∧ Run step ok s before t ∧ P t

namespace Once

variable {labels : List ℓ}

theorem now (h : Run step ok s labels t) (hp : P t) : Once step ok s labels P :=
  ⟨labels, [], t, (List.append_nil _).symm, h, hp⟩

theorem later (h : Once step ok s labels P) (l : ℓ) : Once step ok s (labels ++ [l]) P := by
  obtain ⟨before, after, t, rfl, hrun, hp⟩ := h
  exact ⟨before, after ++ [l], t, List.append_assoc _ _ _, hrun, hp⟩

theorem imp (h : Once step ok s labels P) (hPQ : ∀ t, P t → Q t) : Once step ok s labels Q := by
  obtain ⟨before, after, t, heq, hrun, hp⟩ := h
  exact ⟨before, after, t, heq, hrun, hPQ t hp⟩

end Once

/-- `e` came after `before`, and only what meets `p` has come since. -/
def Since {α : Type*} (p : α → Bool) (e : α) (before trace : List α) : Prop :=
  ∃ mid, trace = before ++ e :: mid ∧ ∀ x ∈ mid, p x = true

namespace Since

variable {α : Type*} {p q : α → Bool} {e x : α} {before trace : List α}

theorem start (p : α → Bool) (e : α) (before : List α) : Since p e before (before ++ [e]) :=
  ⟨[], rfl, by simp⟩

theorem snoc (h : Since p e before trace) (hx : p x = true) : Since p e before (trace ++ [x]) := by
  obtain ⟨mid, rfl, hmid⟩ := h
  refine ⟨mid ++ [x], by simp, fun y hy => ?_⟩
  rcases List.mem_append.mp hy with hy | hy
  · exact hmid y hy
  · rwa [List.mem_singleton.mp hy]

theorem mono (h : Since p e before trace) (hpq : ∀ x, p x = true → q x = true) :
    Since q e before trace := by
  obtain ⟨mid, heq, hmid⟩ := h
  exact ⟨mid, heq, fun x hx => hpq x (hmid x hx)⟩

end Since

/-- From `s` some labels, all of them allowed, lead to a state with `P`. -/
def Attains (step : σ → ℓ → Option σ) (ok : σ → ℓ → Prop) (P : σ → Prop) (s : σ) : Prop :=
  ∃ labels t, Run step ok s labels t ∧ P t

/-- A run whose labels are all allowed. -/
theorem Run.confine {ok' : ℓ → Prop} {labels : List ℓ} (h : Run step ok s labels t)
    (hall : ∀ l ∈ labels, ok' l) : Run step (fun _ l => ok' l) s labels t := by
  induction h with
  | nil => exact .nil _
  | snoc _ _ hs ih =>
    refine (ih fun l hl => hall l (List.mem_append_left _ hl)).snoc ?_ hs
    exact hall _ (List.mem_append_right _ (List.mem_singleton_self _))

namespace Attains

theorem refl (h : P s) : Attains step ok P s := ⟨[], s, .nil s, h⟩

theorem single (hok : ok s l) (hs : step s l = some t) (h : P t) : Attains step ok P s :=
  ⟨[l], t, .single hok hs, h⟩

theorem bind (h : Attains step ok P s) (hP : ∀ t, P t → Attains step ok Q t) :
    Attains step ok Q s := by
  obtain ⟨labels, t, hrun, ht⟩ := h
  obtain ⟨labels', u, hrun', hu⟩ := hP t ht
  exact ⟨labels ++ labels', u, hrun.append hrun', hu⟩

theorem of_step (hok : ok s l) (hs : step s l = some t) (h : Attains step ok P t) :
    Attains step ok P s := by
  refine (single (P := fun u => u = t) hok hs rfl).bind fun u hu => ?_
  rw [hu]
  exact h

theorem mono (h : Attains step ok P s) (hPQ : ∀ t, P t → Q t) : Attains step ok Q s :=
  h.bind fun t ht => refl (hPQ t ht)

theorem weaken (h : Attains step ok P s) (hok : ∀ s l, ok s l → ok' s l) :
    Attains step ok' P s := by
  obtain ⟨labels, t, hrun, ht⟩ := h
  exact ⟨labels, t, hrun.weaken hok, ht⟩

/-- What every allowed step keeps also holds where the goal is attained. -/
theorem keep {I : σ → Prop} (h : Attains step ok P s) (hi : I s)
    (hstep : ∀ s l t, I s → ok s l → step s l = some t → I t) :
    Attains step ok (fun t => P t ∧ I t) s := by
  obtain ⟨labels, t, hrun, ht⟩ := h
  exact ⟨labels, t, hrun, ht, hrun.invariant hi hstep⟩

/-- A goal is attained if all that is short of it comes to less. -/
theorem of_measure {α : Type*} [LT α] [WellFoundedLT α] (μ : σ → α)
    (hless : ∀ s, P s → ¬ Q s → Attains step ok (fun t => P t ∧ μ t < μ s) s) (h : P s) :
    Attains step ok (fun t => P t ∧ Q t) s := by
  induction hμ : μ s using WellFoundedLT.induction generalizing s with
  | ind x ih =>
    by_cases hq : Q s
    · exact refl ⟨h, hq⟩
    · refine (hless s h hq).bind fun t ht => ?_
      exact ih (μ t) (hμ ▸ ht.2) ht.1 rfl

end Attains

/-- Steps that are counted spend a measure; what is observed may add to it. -/
theorem Run.countP_le {β : Type*} {f : σ → σ → List β} {μ : σ → ℕ} {counted : ℓ → Bool} {k : ℕ}
    {labels : List ℓ} (h : Run step ok s labels t)
    (hspend : ∀ ls t l u, Run step ok s ls t → ok t l → step t l = some u →
      (if counted l = true then 1 else 0) + μ u ≤ μ t + k * (f t u).length) :
    labels.countP counted + μ t ≤ μ s + k * (record step f s labels).length := by
  induction h with
  | nil => simp [record]
  | @snoc t u labels l hrun hok hs ih =>
    have hlast := hspend labels t l u hrun hok hs
    rw [hrun.record_snoc hs, List.length_append, List.countP_append, List.countP_singleton, mul_add]
    omega

end WukongSdk
