import WukongSdk.Types

/-!
# Limits of the options and the backoff delay

What `validate` guarantees, and the arithmetic of `reconnect_delay`: the power of
two is a `u32` that saturates, the product and the sum are durations, and the
jitter is whole milliseconds.
-/
namespace WukongSdk

/-- The limits `Options::validate` enforces. -/
structure Options.Valid (o : Options) : Prop where
  certificates : o.additionalRootCertificates.length ≤ 16
  certificate : ∀ c ∈ o.additionalRootCertificates, c ≠ [] ∧ c.length ≤ 65536
  duration : ∀ d ∈ [o.connectTimeout, o.requestTimeout, o.writeTimeout, o.pingInterval,
    o.pongTimeout, o.reconnectDelay, o.maxReconnectDelay], 0 < d ∧ d ≤ day
  delays : o.reconnectDelay ≤ o.maxReconnectDelay
  attempts : o.maxReconnectAttempts ≤ 100
  inFlight : 1 ≤ o.maxInFlight ∧ o.maxInFlight ≤ 65536
  events : 1 ≤ o.eventCapacity ∧ o.eventCapacity ≤ 65536
  message : 256 ≤ o.maxMessageSize ∧ o.maxMessageSize ≤ 64 * 1024 * 1024

theorem Options.validate_ok {o : Options} : o.validate = .ok () ↔ o.Valid := by
  unfold validate
  split
  next h =>
    refine ⟨nofun, fun hv => absurd h ?_⟩
    have hc := hv.certificate
    simp only [Bool.or_eq_true, decide_eq_true_eq, List.any_eq_true, List.isEmpty_iff, not_or,
      not_exists, not_and, not_lt, gt_iff_lt]
    exact ⟨hv.certificates, fun c hmem => hc c hmem⟩
  next h =>
    simp only [Bool.or_eq_true, decide_eq_true_eq, List.any_eq_true, List.isEmpty_iff, not_or,
      not_exists, not_and, not_lt, gt_iff_lt] at h
    split
    next h' =>
      refine ⟨nofun, fun hv => absurd h' ?_⟩
      have hd := hv.duration
      simp only [Bool.or_eq_true, decide_eq_true_eq, List.any_eq_true, Bool.not_eq_true',
        Bool.and_eq_false_iff, decide_eq_false_iff_not, not_or, not_exists, not_and, not_lt,
        gt_iff_lt, not_le]
      refine ⟨⟨⟨⟨⟨fun d hmem => ?_, hv.delays⟩, hv.attempts⟩, ?_⟩, ?_⟩, ?_⟩
      · exact ⟨(hd d hmem).1.ne', (hd d hmem).2⟩
      · exact hv.inFlight
      · exact hv.events
      · exact hv.message
    next h' =>
      simp only [Bool.or_eq_true, decide_eq_true_eq, List.any_eq_true, Bool.not_eq_true',
        Bool.and_eq_false_iff, decide_eq_false_iff_not, not_or, not_exists, not_and, not_lt,
        gt_iff_lt, not_le] at h'
      obtain ⟨⟨⟨⟨⟨hd, hdelays⟩, hattempts⟩, hin⟩, hev⟩, hmsg⟩ := h'
      refine ⟨fun _ => ⟨h.1, h.2, fun d hmem => ?_, hdelays, hattempts, hin, hev, hmsg⟩,
        fun _ => rfl⟩
      exact ⟨Nat.pos_of_ne_zero (hd d hmem).1, (hd d hmem).2⟩

/-! ## Jitter in whole steps

A random number of steps of size `unit`, up to a quarter of `base`. -/

section

variable (base unit random : ℕ)

/-- The number of steps drawn. -/
def jitterSteps : ℕ := random % (base / unit / 4 + 1)

theorem jitterSteps_le : jitterSteps base unit random ≤ base / unit / 4 :=
  Nat.le_of_lt_succ (Nat.mod_lt _ (Nat.succ_pos _))

theorem jitter_le_quarter : jitterSteps base unit random * unit ≤ base / 4 := by
  have hsteps := jitterSteps_le base unit random
  rw [Nat.le_div_iff_mul_le (by norm_num)]
  calc jitterSteps base unit random * unit * 4
      ≤ base / unit / 4 * unit * 4 := by gcongr
    _ = base / unit / 4 * 4 * unit := by ring
    _ ≤ base / unit * unit := by gcongr; exact Nat.div_mul_le_self ..
    _ ≤ base := Nat.div_mul_le_self ..

end

/-! ## The delay -/

/-- The exponential delay before attempt `attempt`, with the power of two limited
to a `u32` and the product capped. -/
def cappedBackoff (o : Options) (attempt : ℕ) : ℕ :=
  min (o.reconnectDelay * min (2 ^ (attempt - 1)) (2 ^ 32 - 1)) o.maxReconnectDelay

namespace Options.Valid

variable {o : Options} (h : o.Valid)
include h

theorem reconnectDelay_pos : 0 < o.reconnectDelay ∧ o.reconnectDelay ≤ day :=
  h.duration _ (by simp)

theorem maxReconnectDelay_le : o.maxReconnectDelay ≤ day := (h.duration _ (by simp)).2

/-- The product of the delay and a `u32` is far below the largest duration. -/
theorem durationMul_eq {power : ℕ} (hp : power ≤ 2 ^ 32 - 1) :
    durationMul o.reconnectDelay power = o.reconnectDelay * power := by
  have hday := h.reconnectDelay_pos.2
  have hmul : o.reconnectDelay * power ≤ day * (2 ^ 32 - 1) := Nat.mul_le_mul hday hp
  have hmax : day * (2 ^ 32 - 1) ≤ durationMax := by decide
  exact min_eq_left (hmul.trans hmax)

theorem backoff_le (attempt : ℕ) : cappedBackoff o attempt ≤ day :=
  (min_le_right ..).trans h.maxReconnectDelay_le

/-- The bound of the jitter fits a `u64`, with room for the increment. -/
theorem bound_lt (attempt : ℕ) : cappedBackoff o attempt / 1000000 / 4 + 1 < 2 ^ 64 := by
  have hle := h.backoff_le attempt
  unfold day second at hle
  omega

/-- The sum of the delay and its jitter does not saturate. -/
theorem sum_le (attempt random : ℕ) :
    cappedBackoff o attempt + jitterSteps (cappedBackoff o attempt) 1000000 random * 1000000 ≤
      durationMax := by
  have hle := h.backoff_le attempt
  have hquarter := jitter_le_quarter (cappedBackoff o attempt) 1000000 random
  have hmax : day + day / 4 ≤ durationMax := by decide
  omega

/-- The delay without the conversions, none of which changes a value. -/
theorem reconnectDelay_eq (attempt random : ℕ) :
    WukongSdk.reconnectDelay o attempt random =
      min (cappedBackoff o attempt +
        jitterSteps (cappedBackoff o attempt) 1000000 random * 1000000) o.maxReconnectDelay := by
  have hbase : min (durationMul o.reconnectDelay (min (2 ^ (attempt - 1)) (2 ^ 32 - 1)))
      o.maxReconnectDelay = cappedBackoff o attempt := by
    rw [h.durationMul_eq (min_le_right ..), cappedBackoff]
  have hcast : jitterSteps (cappedBackoff o attempt) 1000000 random % 2 ^ 64 =
      jitterSteps (cappedBackoff o attempt) 1000000 random := by
    have hsteps := jitterSteps_le (cappedBackoff o attempt) 1000000 random
    have hbound := h.bound_lt attempt
    exact Nat.mod_eq_of_lt (by omega)
  unfold WukongSdk.reconnectDelay
  simp only [hbase]
  rw [← jitterSteps, hcast, durationAdd, min_eq_left (h.sum_le attempt random)]

theorem delay_le_backoff (attempt : ℕ) : o.reconnectDelay ≤ cappedBackoff o attempt := by
  have hone : 1 ≤ min (2 ^ (attempt - 1)) (2 ^ 32 - 1) := le_min Nat.one_le_two_pow (by norm_num)
  exact le_min (Nat.le_mul_of_pos_right _ hone) h.delays

/-- The limit of the power shows exactly from attempt 33 on, where the cap does
not hide it. -/
theorem cappedBackoff_eq_iff (attempt : ℕ) :
    cappedBackoff o attempt = min (o.reconnectDelay * 2 ^ (attempt - 1)) o.maxReconnectDelay ↔
      attempt ≤ 32 ∨ o.maxReconnectDelay ≤ o.reconnectDelay * (2 ^ 32 - 1) := by
  have hpos := h.reconnectDelay_pos.1
  unfold cappedBackoff
  by_cases hsmall : attempt ≤ 32
  · have hpow : 2 ^ (attempt - 1) ≤ 2 ^ 32 - 1 :=
      (Nat.pow_le_pow_right (by norm_num) (by omega : attempt - 1 ≤ 31)).trans (by norm_num)
    simp only [min_eq_left hpow, hsmall, true_or]
  · have hpow : 2 ^ 32 ≤ 2 ^ (attempt - 1) := Nat.pow_le_pow_right (by norm_num) (by omega)
    have hmul : o.reconnectDelay * 2 ^ 32 ≤ o.reconnectDelay * 2 ^ (attempt - 1) :=
      Nat.mul_le_mul_left _ hpow
    rw [min_eq_right (by omega : 2 ^ 32 - 1 ≤ 2 ^ (attempt - 1))]
    simp only [hsmall, false_or]
    omega

end Options.Valid

/-- The delay before a reconnect attempt lies between the capped exponential delay
and a quarter more, never above the configured maximum; no conversion on the way
saturates or loses bits but the power of two itself, which does so exactly from
attempt 33 on where the maximum is not reached before. -/
theorem reconnect_delay_bounds {o : Options} (h : o.validate = .ok ()) (attempt random : ℕ) :
    (cappedBackoff o attempt ≤ reconnectDelay o attempt random ∧
      reconnectDelay o attempt random ≤
        min (cappedBackoff o attempt + cappedBackoff o attempt / 4) o.maxReconnectDelay ∧
      o.reconnectDelay ≤ reconnectDelay o attempt random) ∧
    (durationMul o.reconnectDelay (min (2 ^ (attempt - 1)) (2 ^ 32 - 1)) =
        o.reconnectDelay * min (2 ^ (attempt - 1)) (2 ^ 32 - 1) ∧
      cappedBackoff o attempt / 1000000 / 4 + 1 < 2 ^ 64 ∧
      cappedBackoff o attempt + jitterSteps (cappedBackoff o attempt) 1000000 random * 1000000 ≤
        durationMax) ∧
    (cappedBackoff o attempt = min (o.reconnectDelay * 2 ^ (attempt - 1)) o.maxReconnectDelay ↔
      attempt ≤ 32 ∨ o.maxReconnectDelay ≤ o.reconnectDelay * (2 ^ 32 - 1)) := by
  have hv := Options.validate_ok.mp h
  have hlow : cappedBackoff o attempt ≤ reconnectDelay o attempt random := by
    rw [hv.reconnectDelay_eq]
    exact le_min (Nat.le_add_right ..) (min_le_right ..)
  refine ⟨⟨hlow, ?_, (hv.delay_le_backoff attempt).trans hlow⟩,
    ⟨hv.durationMul_eq (min_le_right ..), hv.bound_lt attempt, hv.sum_le attempt random⟩,
    hv.cappedBackoff_eq_iff attempt⟩
  rw [hv.reconnectDelay_eq]
  exact min_le_min_right _ (Nat.add_le_add_left (jitter_le_quarter ..) _)

/-- A delay of one nanosecond that may grow to a day. -/
def patient : Options :=
  { Options.default with
    maxReconnectAttempts := 100, reconnectDelay := 1, maxReconnectDelay := day }

theorem reconnect_delay_bounds_patient :
    1 ≤ reconnectDelay patient 34 7 ∧ cappedBackoff patient 34 ≤ reconnectDelay patient 34 7 :=
  have h := (reconnect_delay_bounds (o := patient) (by decide +kernel) 34 7).1
  ⟨h.2.2, h.1⟩

/-- Attempt 34 of that client waits about half of the exact exponential delay. -/
theorem reconnect_delay_saturates :
    patient.validate = .ok () ∧ 1 ≤ 34 ∧ 34 ≤ patient.maxReconnectAttempts ∧
      reconnectDelay patient 34 7 <
        min (patient.reconnectDelay * 2 ^ (34 - 1)) patient.maxReconnectDelay := by
  decide +kernel

end WukongSdk
