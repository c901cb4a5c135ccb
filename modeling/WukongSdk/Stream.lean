import Mathlib

/-!
# Reading a stream piece by piece

A reader takes one item off the front of a list, if a complete one is there. The
items of a list, and what is left of it, then do not depend on how the list
arrived. Beside it, the search for the first occurrence of a pattern.
-/
namespace WukongSdk

/-- A reader of items that are never empty and that later input does not change. -/
structure Reader (α β : Type*) where
  read : List α → Option (β × List α)
  shorter : ∀ {bs item rest}, read bs = some (item, rest) → rest.length < bs.length
  stable : ∀ {bs item rest}, read bs = some (item, rest) →
    ∀ data, read (bs ++ data) = some (item, rest ++ data)

namespace Reader

variable {α β : Type*} (R : Reader α β)

/-- The complete items at the front of a list, and what is left. -/
def drain (bs : List α) : List β × List α :=
  match h : R.read bs with
  | none => ([], bs)
  | some (item, rest) =>
    have := R.shorter h
    (item :: (drain rest).1, (drain rest).2)
termination_by bs.length

variable {R} {bs rest : List α} {item : β}

theorem drain_none (h : R.read bs = none) : R.drain bs = ([], bs) := by
  rw [drain]
  split
  · rfl
  next h' =>
    rw [h] at h'
    cases h'

theorem drain_some (h : R.read bs = some (item, rest)) :
    R.drain bs = (item :: (R.drain rest).1, (R.drain rest).2) := by
  rw [drain]
  split
  next h' =>
    rw [h] at h'
    cases h'
  next h' =>
    rw [h, Option.some.injEq, Prod.mk.injEq] at h'
    obtain ⟨rfl, rfl⟩ := h'
    rfl

/-- Induction along the items of a list. -/
theorem drain_induction {P : List α → Prop} (stuck : ∀ bs, R.read bs = none → P bs)
    (item : ∀ bs b rest, R.read bs = some (b, rest) → P rest → P bs) (bs : List α) : P bs := by
  induction hn : bs.length using Nat.strong_induction_on generalizing bs with
  | _ n ih =>
    cases h : R.read bs with
    | none => exact stuck bs h
    | some p =>
      obtain ⟨b, rest⟩ := p
      exact item bs b rest h (ih rest.length (hn ▸ R.shorter h) rest rfl)

/-- No complete item is left. -/
theorem read_drain (bs : List α) : R.read (R.drain bs).2 = none := by
  induction bs using drain_induction (R := R) with
  | stuck bs h => rw [drain_none h, h]
  | item bs b rest h ih => rw [drain_some h, ih]

/-- More input adds its items after those that were complete. -/
theorem drain_append (bs data : List α) :
    R.drain (bs ++ data) =
      ((R.drain bs).1 ++ (R.drain ((R.drain bs).2 ++ data)).1,
        (R.drain ((R.drain bs).2 ++ data)).2) := by
  induction bs using drain_induction (R := R) with
  | stuck bs h => rw [drain_none h, List.nil_append]
  | item bs b rest h ih => rw [drain_some h, drain_some (R.stable h data), ih, List.cons_append]

end Reader

/-! ## Pieces of known length -/

section

variable {α : Type*} {n : ℕ} {bs piece rest : List α}

/-- The first `n` elements and what follows them, if there are so many. -/
def chop (n : ℕ) (bs : List α) : Option (List α × List α) :=
  if bs.length < n then none else some (bs.take n, bs.drop n)

theorem chop_eq_some :
    chop n bs = some (piece, rest) ↔ bs = piece ++ rest ∧ piece.length = n := by
  unfold chop
  rw [Option.ite_none_left_eq_some, Option.some.injEq, Prod.mk.injEq, not_lt]
  constructor
  · rintro ⟨hn, rfl, rfl⟩
    exact ⟨(List.take_append_drop n bs).symm, List.length_take_of_le hn⟩
  · rintro ⟨rfl, rfl⟩
    simp

end

/-! ## The first occurrence of a pattern -/

section

variable {α : Type*} [DecidableEq α]

/-- The index of the first occurrence of `pattern`. -/
def find (pattern : List α) : List α → Option ℕ
  | [] => if pattern = [] then some 0 else none
  | b :: bs => if pattern <+: b :: bs then some 0 else (find pattern bs).map (· + 1)

variable {pattern : List α}

/-- The pattern stands at the index found, and nowhere before. -/
theorem find_eq_some {bs : List α} {i : ℕ} :
    find pattern bs = some i ↔
      i ≤ bs.length ∧ pattern <+: bs.drop i ∧ ∀ j < i, ¬ pattern <+: bs.drop j := by
  induction bs generalizing i with
  | nil =>
    rw [find, Option.ite_none_right_eq_some, Option.some.injEq]
    constructor
    · rintro ⟨rfl, rfl⟩
      simp
    · rintro ⟨hi, hat, -⟩
      obtain rfl := Nat.le_zero.mp hi
      exact ⟨List.prefix_nil.mp hat, rfl⟩
  | cons b bs ih =>
    rw [find]
    split
    next hpre =>
      rw [Option.some.injEq]
      constructor
      · rintro rfl
        exact ⟨Nat.zero_le _, hpre, fun j hj => absurd hj (Nat.not_lt_zero j)⟩
      · rintro ⟨-, -, hbefore⟩
        by_contra hi
        exact hbefore 0 (Nat.pos_of_ne_zero fun h => hi h.symm) hpre
    next hpre =>
      cases i with
      | zero => simp [hpre]
      | succ i =>
        rw [Option.map_eq_some_iff]
        constructor
        · rintro ⟨j, hj, heq⟩
          obtain rfl := Nat.succ.inj heq
          obtain ⟨hle, hat, hbefore⟩ := ih.mp hj
          refine ⟨Nat.succ_le_succ hle, hat, fun k hk => ?_⟩
          cases k with
          | zero => exact hpre
          | succ k => exact hbefore k (Nat.lt_of_succ_lt_succ hk)
        · rintro ⟨hle, hat, hbefore⟩
          exact ⟨i, ih.mpr ⟨Nat.le_of_succ_le_succ hle, hat,
            fun k hk => hbefore (k + 1) (Nat.succ_lt_succ hk)⟩, rfl⟩

theorem find_le {bs : List α} {i : ℕ} (h : find pattern bs = some i) :
    i + pattern.length ≤ bs.length := by
  obtain ⟨hle, hat, -⟩ := find_eq_some.mp h
  have hlen := hat.length_le
  rw [List.length_drop] at hlen
  omega

/-- Later input does not move the first occurrence. -/
theorem find_append {bs : List α} {i : ℕ} (h : find pattern bs = some i) (data : List α) :
    find pattern (bs ++ data) = some i := by
  obtain ⟨hle, hat, hbefore⟩ := find_eq_some.mp h
  refine find_eq_some.mpr ⟨hle.trans (by simp), ?_, fun j hj hpre => hbefore j hj ?_⟩
  · rw [List.drop_append_of_le_length hle]
    exact hat.trans (List.prefix_append ..)
  · -- an occurrence before the one found lies within the old input
    have hfits := find_le h
    rw [List.drop_append_of_le_length (by omega)] at hpre
    refine List.prefix_of_prefix_length_le hpre (List.prefix_append ..) ?_
    rw [List.length_drop]
    omega

end

end WukongSdk
