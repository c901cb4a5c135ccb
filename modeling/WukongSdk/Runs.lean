import Mathlib

/-!
# Runs of a partial step function

A system is a function `step` that takes a state and a label to the next state,
when there is one. A run is a list of labels; it may be confined to steps that
meet a condition `ok` on the state before the step.
-/
namespace WukongSdk

variable {σ ℓ : Type*}

/-- `Run step ok s labels t`: from `s` the labels lead to `t`, and every step
meets `ok`. -/
inductive Run (step : σ → ℓ → Option σ) (ok : σ → ℓ → Prop) : σ → List ℓ → σ → Prop
  | nil (s : σ) : Run step ok s [] s
  | snoc {s t u : σ} {labels : List ℓ} {l : ℓ} :
      Run step ok s labels t → ok t l → step t l = some u → Run step ok s (labels ++ [l]) u

/-- The state the labels lead to, computed. -/
def exec (step : σ → ℓ → Option σ) (s : σ) (labels : List ℓ) : Option σ :=
  labels.foldlM step s

theorem exec_append {step : σ → ℓ → Option σ} {s t : σ} {ls ls' : List ℓ}
    (h : exec step s ls = some t) : exec step s (ls ++ ls') = exec step t ls' := by
  rw [exec, List.foldlM_append, show ls.foldlM step s = some t from h]
  rfl

theorem exec_cons {step : σ → ℓ → Option σ} {s t : σ} {l : ℓ} {ls : List ℓ}
    (h : exec step s [l] = some t) : exec step s (l :: ls) = exec step t ls :=
  exec_append h

/-- What is observed of the steps that the labels lead through. -/
def record {β : Type*} (step : σ → ℓ → Option σ) (obs : σ → σ → List β) (s : σ) :
    List ℓ → List β
  | [] => []
  | l :: ls =>
    match step s l with
    | some t => obs s t ++ record step obs t ls
    | none => []

namespace Run

variable {step : σ → ℓ → Option σ} {ok ok' : σ → ℓ → Prop} {s t u : σ}
  {ls ls' : List ℓ} {l : ℓ}

theorem append (h : Run step ok s ls t) (h' : Run step ok t ls' u) :
    Run step ok s (ls ++ ls') u := by
  induction h' with
  | nil => simpa using h
  | snoc _ hok hstep ih => simpa [← List.append_assoc] using ih.snoc hok hstep

theorem single (hok : ok s l) (h : step s l = some t) : Run step ok s [l] t :=
  (Run.nil s).snoc hok h

theorem eq_of_nil (h : Run step ok s [] t) : s = t := by
  generalize hlist : [] = list at h
  cases h with
  | nil => rfl
  | snoc _ _ _ => simp at hlist

/-- The last step of a run. -/
theorem unsnoc (h : Run step ok s (ls ++ [l]) t) :
    ∃ u, Run step ok s ls u ∧ ok u l ∧ step u l = some t := by
  generalize hlist : ls ++ [l] = list at h
  cases h with
  | nil => simp at hlist
  | snoc hrun hok hstep =>
    obtain ⟨rfl, heq⟩ := List.append_inj' hlist rfl
    cases heq
    exact ⟨_, hrun, hok, hstep⟩

/-- A run over two lists of labels passes through a state between them. -/
theorem split (h : Run step ok s (ls ++ ls') t) :
    ∃ u, Run step ok s ls u ∧ Run step ok u ls' t := by
  induction ls' using List.reverseRec generalizing t with
  | nil => exact ⟨t, by simpa using h, .nil t⟩
  | append_singleton ls' l ih =>
    rw [← List.append_assoc] at h
    obtain ⟨v, hrun, hok, hstep⟩ := h.unsnoc
    obtain ⟨u, h₁, h₂⟩ := ih hrun
    exact ⟨u, h₁, h₂.snoc hok hstep⟩

/-- The first step of a run. -/
theorem uncons (h : Run step ok s (l :: ls) t) :
    ∃ u, ok s l ∧ step s l = some u ∧ Run step ok u ls t := by
  have happ : Run step ok s ([] ++ [l] ++ ls) t := h
  obtain ⟨u, h₁, h₂⟩ := happ.split
  obtain ⟨v, hnil, hok, hstep⟩ := h₁.unsnoc
  obtain rfl := hnil.eq_of_nil
  exact ⟨u, hok, hstep, h₂⟩

/-- A property that comes to hold on a run comes to hold at one of its steps. -/
theorem crossing {P : σ → Prop} (h : Run step ok s ls t) (hs : ¬ P s) (ht : P t) :
    ∃ before l after u v, ls = before ++ l :: after ∧ Run step ok s before u ∧ ¬ P u ∧
      step u l = some v ∧ P v ∧ Run step ok v after t := by
  induction h with
  | nil => exact absurd ht hs
  | @snoc t v labels l hrun hok hstep ih =>
    by_cases hp : P t
    · obtain ⟨before, m, after, u, w, rfl, hbefore, hu, hm, hw, hafter⟩ := ih hp
      exact ⟨before, m, after ++ [l], u, w, by simp, hbefore, hu, hm, hw, hafter.snoc hok hstep⟩
    · exact ⟨labels, l, [], t, v, rfl, hrun, hp, hstep, ht, .nil v⟩

/-- A run under a condition is a run under any weaker one. -/
theorem weaken (h : Run step ok s ls t) (himp : ∀ s l, ok s l → ok' s l) :
    Run step ok' s ls t := by
  induction h with
  | nil => exact .nil _
  | snoc _ hok hstep ih => exact ih.snoc (himp _ _ hok) hstep

/-- What holds at the start and is kept by every step holds at the end. -/
theorem invariant {I : σ → Prop} (h : Run step ok s ls t) (h₀ : I s)
    (hstep : ∀ s l u, I s → ok s l → step s l = some u → I u) : I t := by
  induction h with
  | nil => exact h₀
  | snoc _ hok hs ih => exact hstep _ _ _ ih hok hs

/-- The same where the step may use that its state lies on the run. -/
theorem invariant_along {I : σ → Prop} (h : Run step ok s ls t) (h₀ : I s)
    (hstep : ∀ ls t l u, Run step ok s ls t → I t → ok t l → step t l = some u → I u) : I t := by
  induction h with
  | nil => exact h₀
  | snoc hrun hok hs ih => exact hstep _ _ _ _ hrun ih hok hs

/-- The same with the help of an invariant `J` of the whole run. -/
theorem invariant_with {I J : σ → Prop} (h : Run step ok s ls t) (h₀ : I s) (hJ₀ : J s)
    (hJ : ∀ s l u, J s → step s l = some u → J u)
    (hstep : ∀ s l u, I s → J s → J u → ok s l → step s l = some u → I u) : I t := by
  have both : I t ∧ J t := by
    refine h.invariant (I := fun s => I s ∧ J s) ⟨h₀, hJ₀⟩ ?_
    rintro s l u ⟨hi, hj⟩ hok hs
    have hju := hJ s l u hj hs
    exact ⟨hstep s l u hi hj hju hok hs, hju⟩
  exact both.1

/-- A relation between two states of a run: reflexive, and extended by a step. -/
theorem relation {R : σ → σ → Prop} {J : σ → Prop} (h : Run step ok s ls t) (hJ₀ : J s)
    (hJ : ∀ s l u, J s → step s l = some u → J u) (hrefl : R s s)
    (hstep : ∀ t l u, R s t → J t → step t l = some u → R s u) : R s t :=
  h.invariant_with (I := R s) hrefl hJ₀ hJ fun t l u hr hj _ _ hs => hstep t l u hr hj hs

theorem of_exec (h : exec step s ls = some t) : Run step (fun _ _ => True) s ls t := by
  induction ls using List.reverseRec generalizing t with
  | nil =>
    have hst : s = t := by simpa [exec] using h
    exact hst ▸ .nil s
  | append_singleton ls l ih =>
    rw [exec, List.foldlM_append] at h
    obtain ⟨m, hm, hl⟩ := Option.bind_eq_some_iff.mp h
    exact (ih hm).snoc trivial (by simpa using hl)

/-- A computed run whose steps pass a check is a run under what the check ensures. -/
theorem of_checked {check : σ → ℓ → Bool} (hcheck : ∀ s l, check s l = true → ok s l)
    (h : exec (fun s l => if check s l then step s l else none) s ls = some t) :
    Run step ok s ls t := by
  have hrun := of_exec h
  clear h
  induction hrun with
  | nil => exact .nil _
  | snoc _ _ hstep ih =>
    simp only [Option.ite_none_right_eq_some] at hstep
    exact ih.snoc (hcheck _ _ hstep.1) hstep.2

section

variable {β : Type*} {f : σ → σ → List β}

theorem record_append (h : Run step ok s ls t) (ls' : List ℓ) :
    record step f s (ls ++ ls') = record step f s ls ++ record step f t ls' := by
  induction h generalizing ls' with
  | nil => rfl
  | @snoc t u labels l _ _ hstep ih =>
    rw [List.append_assoc, ih, ih, List.append_assoc]
    simp [record, hstep]

theorem record_snoc (h : Run step ok s ls t) (hstep : step t l = some u) :
    record step f s (ls ++ [l]) = record step f s ls ++ f t u := by
  rw [h.record_append]
  simp [record, hstep]

/-- A relation between a state and what has been observed up to it. -/
theorem invariant_record {I : σ → List β → Prop} (h : Run step ok s ls t) (h₀ : I s [])
    (hstep : ∀ ls t l u, Run step ok s ls t → I t (record step f s ls) → ok t l →
      step t l = some u → I u (record step f s ls ++ f t u)) :
    I t (record step f s ls) := by
  induction h with
  | nil => exact h₀
  | snoc hrun hok hs ih =>
    rw [hrun.record_snoc hs]
    exact hstep _ _ _ _ hrun ih hok hs

end

end Run

end WukongSdk
