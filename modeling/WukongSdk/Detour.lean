import WukongSdk.Runs

/-!
# Runs with detours

A detour is a list of labels that leads from a state to one a relation does not
tell from it. Where the relation is kept by every step, a run may take detours at
any of its states and still ends where it ended, up to the relation.
-/
namespace WukongSdk

variable {σ ℓ : Type*}

/-- `Padded step detour s ls ls'`: the labels `ls'` are `ls` with detours taken
at states that `ls` passes through from `s`. -/
inductive Padded (step : σ → ℓ → Option σ) (detour : σ → List ℓ → Prop) :
    σ → List ℓ → List ℓ → Prop
  | nil (s : σ) : Padded step detour s [] []
  | keep {s t : σ} {l : ℓ} {ls ls' : List ℓ} (hs : step s l = some t)
      (h : Padded step detour t ls ls') : Padded step detour s (l :: ls) (l :: ls')
  | detour {s : σ} {ds ls ls' : List ℓ} (hd : detour s ds) (h : Padded step detour s ls ls') :
      Padded step detour s ls (ds ++ ls')

/-- A relation that every step keeps, on states that no condition tells apart,
and that every detour stays within. -/
structure Unnoticed (step : σ → ℓ → Option σ) (ok : σ → ℓ → Prop) (detour : σ → List ℓ → Prop)
    (R : σ → σ → Prop) : Prop where
  stepped : ∀ s s' l t, R s s' → step s l = some t → ∃ t', step s' l = some t' ∧ R t t'
  allowed : ∀ s s' l, R s s' → ok s l → ok s' l
  taken : ∀ s s' ds, R s s' → detour s ds → ∃ t', Run step ok s' ds t' ∧ R s t'

variable {step : σ → ℓ → Option σ} {ok : σ → ℓ → Prop} {detour : σ → List ℓ → Prop}
  {R : σ → σ → Prop} {s s' t : σ} {ls ls' : List ℓ}

/-- Every list of labels is padded by no detour at all. -/
theorem Padded.refl (h : Run step ok s ls t) : Padded step detour s ls ls := by
  induction ls generalizing s with
  | nil => exact .nil s
  | cons l ls ih =>
    obtain ⟨u, -, hs, hrest⟩ := h.uncons
    exact .keep hs (ih hrest)

/-- A run with detours ends where the run without them does. -/
theorem Padded.run (h : Padded step detour s ls ls') (hu : Unnoticed step ok detour R)
    (hrun : Run step ok s ls t) (hr : R s s') : ∃ t', Run step ok s' ls' t' ∧ R t t' := by
  induction h generalizing s' with
  | nil s =>
    obtain rfl := hrun.eq_of_nil
    exact ⟨s', .nil s', hr⟩
  | @keep s u l ls ls' hs _ ih =>
    obtain ⟨v, hok, hv, hrest⟩ := hrun.uncons
    obtain rfl : u = v := Option.some.inj (hs.symm.trans hv)
    obtain ⟨u', hs', hr'⟩ := hu.stepped _ _ _ _ hr hs
    obtain ⟨t', ht', hrt⟩ := ih hrest hr'
    exact ⟨t', (Run.single (hu.allowed _ _ _ hr hok) hs').append ht', hrt⟩
  | detour hd _ ih =>
    obtain ⟨u', hu', hr'⟩ := hu.taken _ _ _ hr hd
    obtain ⟨t', ht', hrt⟩ := ih hrun hr'
    exact ⟨t', hu'.append ht', hrt⟩

end WukongSdk
