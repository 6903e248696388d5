import QuestOS.Sched.Lifecycle

/-!
# The time-slice test

`round_robin_need_resched` compares two time stamps in nanoseconds, each converted from a counter
reading by a product that is reduced modulo `2 ^ 64` before it is divided by the frequency.  The
product passes a multiple of `2 ^ 64` every few minutes, and from the first time on the two
divisions no longer round at the same places as the exact ones.  Here the outcome of the test is
compared with that of the exact conversion, for every pair of readings.
-/

namespace QuestOS

variable {cfg : CpuConfig} {t₀ t₁ f : Nat}

def nsPerSecond : Nat := 1000000000

theorem countToNs_eq (cfg : CpuConfig) (t : Nat) :
    countToNs cfg t = t * nsPerSecond % 2 ^ 64 / cfg.counterFreq := rfl

/-- A time stamp is taken by `run_process` and read back at the next exception from EL0. -/
theorem lastRunTimestamp_kernelEntry (cfg : CpuConfig) (cnt : Nat) (p : Pid) (c : Cpu) :
    let c' := kernelEntry (runProcess cfg cnt p c)
    (c'.procs c'.current).lastRunTimestamp = countToNs cfg cnt := by
  simp [kernelEntry, runProcess, Cpu.modify]

/-! ### Differences of quotients -/

/-- Two quotients differ by at most `T` iff the dividends do, up to the rounding of the first. -/
theorem div_sub_div_le_iff {a d T : Nat} (hf : 0 < f) :
    (a + d) / f - a / f ≤ T ↔ d + a % f < (T + 1) * f := by
  have ha : f * (a / f) + a % f = a := Nat.div_add_mod a f
  calc (a + d) / f - a / f ≤ T
      ↔ (a + d) / f < a / f + (T + 1) := by omega
    _ ↔ a + d < (a / f + (T + 1)) * f := Nat.div_lt_iff_lt_mul hf
    _ ↔ d + a % f < (T + 1) * f := by
      rw [Nat.add_mul, Nat.mul_comm (a / f) f]
      omega

/-- A quotient does not get smaller when the dividend falls within the rounding of the first. -/
theorem div_le_div_iff_rounding {a b : Nat} (hf : 0 < f) : a / f ≤ b / f ↔ a ≤ b + a % f := by
  have ha : f * (a / f) + a % f = a := Nat.div_add_mod a f
  rw [Nat.le_div_iff_mul_le hf, Nat.mul_comm]
  omega

/-- The wrapping difference of two quotients by a divisor above 1: if the second is smaller, the
difference is more than half of the range. -/
theorem wrapping_sub_le_iff {W T x y : Nat} (hx : 2 * x < W) (hy : 2 * y < W) (hT : 2 * T < W) :
    (y + W - x) % W ≤ T ↔ x ≤ y ∧ y - x ≤ T := by
  rcases Nat.lt_or_ge y x with hyx | hxy
  · rw [Nat.mod_eq_of_lt (by omega)]
    omega
  · rw [show y + W - x = y - x + W by omega, Nat.add_mod_right, Nat.mod_eq_of_lt (by omega)]
    omega

/-! ### The two tests -/

def advance (t₀ t₁ : Nat) : Nat := (t₁ - t₀) * nsPerSecond

theorem add_advance (h : t₀ ≤ t₁) : t₀ * nsPerSecond + advance t₀ t₁ = t₁ * nsPerSecond := by
  rw [advance, ← Nat.add_mul, Nat.add_sub_cancel' h]

def SliceUsedUp (f t₀ t₁ : Nat) : Prop :=
  timeSliceNs < t₁ * nsPerSecond / f - t₀ * nsPerSecond / f

theorem not_sliceUsedUp_iff (hf : 0 < f) (h : t₀ ≤ t₁) : ¬ SliceUsedUp f t₀ t₁ ↔
    advance t₀ t₁ + t₀ * nsPerSecond % f < (timeSliceNs + 1) * f := by
  rw [SliceUsedUp, Nat.not_lt, ← add_advance h]
  exact div_sub_div_le_iff hf

theorem reduced_advance (h : t₀ ≤ t₁) : t₁ * nsPerSecond % 2 ^ 64 =
    (t₀ * nsPerSecond % 2 ^ 64 + advance t₀ t₁ % 2 ^ 64) % 2 ^ 64 := by
  rw [← Nat.add_mod, add_advance h]

/-- The test says no, for a frequency above 1 Hz: since the first reading the reduced product has
advanced by less than a time slice and has not passed a multiple of `2 ^ 64`, or it is back within
the nanosecond of the first reading. -/
def SliceReadsUnused (f t₀ t₁ : Nat) : Prop :=
  let start := t₀ * nsPerSecond % 2 ^ 64
  let moved := advance t₀ t₁ % 2 ^ 64
  start + moved < 2 ^ 64 ∧ moved + start % f < (timeSliceNs + 1) * f ∨ 2 ^ 64 ≤ moved + start % f

theorem slice_product_lt (hf : f ≤ nsPerSecond) : (timeSliceNs + 1) * f < 2 ^ 63 :=
  calc (timeSliceNs + 1) * f ≤ (timeSliceNs + 1) * nsPerSecond := Nat.mul_le_mul_left _ hf
    _ < 2 ^ 63 := by decide

/-- The quotients of the two reduced products are at most a time slice apart, in this order. -/
theorem sliceReadsUnused_iff (hf : 0 < f) (hf' : f ≤ nsPerSecond) (h : t₀ ≤ t₁) :
    t₀ * nsPerSecond % 2 ^ 64 / f ≤ t₁ * nsPerSecond % 2 ^ 64 / f ∧
      t₁ * nsPerSecond % 2 ^ 64 / f - t₀ * nsPerSecond % 2 ^ 64 / f ≤ timeSliceNs ↔
    SliceReadsUnused f t₀ t₁ := by
  rw [reduced_advance h, SliceReadsUnused]
  have hstart : t₀ * nsPerSecond % 2 ^ 64 < 2 ^ 64 := Nat.mod_lt _ (by decide)
  have hmoved : advance t₀ t₁ % 2 ^ 64 < 2 ^ 64 := Nat.mod_lt _ (by decide)
  generalize t₀ * nsPerSecond % 2 ^ 64 = n at hstart ⊢
  generalize advance t₀ t₁ % 2 ^ 64 = m at hmoved ⊢
  have hround : n % f ≤ n := Nat.mod_le n f
  have hrest : n % f < f := Nat.mod_lt n hf
  have hslice := slice_product_lt hf'
  rcases Nat.lt_or_ge (n + m) (2 ^ 64) with hlt | hge
  · -- no multiple of `2 ^ 64` is passed: only the distance counts
    rw [Nat.mod_eq_of_lt hlt, div_le_div_iff_rounding hf, div_sub_div_le_iff hf]
    omega
  · -- one is passed: the second product is the smaller one, at most the rounding makes them equal
    have hmod : (n + m) % 2 ^ 64 = n + m - 2 ^ 64 := by omega
    have hle : (n + m - 2 ^ 64) / f ≤ n / f := Nat.div_le_div_right (by omega)
    rw [hmod, div_le_div_iff_rounding hf]
    omega

theorem roundRobinNeedResched_iff (hf : 1 < cfg.counterFreq) (hf' : cfg.counterFreq ≤ nsPerSecond)
    (h : t₀ ≤ t₁) {c : Cpu} (hc : (c.procs c.current).lastRunTimestamp = countToNs cfg t₀) :
    roundRobinNeedResched cfg t₁ c = true ↔ ¬ SliceReadsUnused cfg.counterFreq t₀ t₁ := by
  have hhalf : ∀ t, 2 * (t * nsPerSecond % 2 ^ 64 / cfg.counterFreq) < 2 ^ 64 := by
    intro t
    have hle : t * nsPerSecond % 2 ^ 64 / cfg.counterFreq ≤ t * nsPerSecond % 2 ^ 64 / 2 :=
      Nat.div_le_div_left hf (by decide)
    omega
  rw [roundRobinNeedResched, hc, decide_eq_true_iff, ← Nat.not_le, countToNs_eq, countToNs_eq,
    wrapping_sub_le_iff (hhalf t₀) (hhalf t₁) (by decide),
    sliceReadsUnused_iff (by omega) hf' h]

theorem roundRobinNeedResched_iff_one (hf : cfg.counterFreq = 1) (h : t₀ ≤ t₁) {c : Cpu}
    (hc : (c.procs c.current).lastRunTimestamp = countToNs cfg t₀) :
    roundRobinNeedResched cfg t₁ c = true ↔ timeSliceNs < advance t₀ t₁ % 2 ^ 64 := by
  rw [roundRobinNeedResched, hc, decide_eq_true_iff, countToNs_eq, countToNs_eq, hf, Nat.div_one,
    Nat.div_one, reduced_advance h]
  have hmoved : advance t₀ t₁ % 2 ^ 64 < 2 ^ 64 := Nat.mod_lt _ (by decide)
  have hsub : ((t₀ * nsPerSecond % 2 ^ 64 + advance t₀ t₁ % 2 ^ 64) % 2 ^ 64 + 2 ^ 64 -
      t₀ * nsPerSecond % 2 ^ 64) % 2 ^ 64 = advance t₀ t₁ % 2 ^ 64 := by
    omega
  rw [hsub]

/-- The readings for which the reduction of the products does not change the outcome of the test.
A slice not used up must not see the product pass a multiple of `2 ^ 64`, nor the rounding of the
first reading by the reduced product make up the difference; a used-up slice must not have ended
just behind a whole number of turns of the product. -/
def ReductionHarmless (f t₀ t₁ : Nat) : Prop :=
  let start := t₀ * nsPerSecond % 2 ^ 64
  let moved := advance t₀ t₁ % 2 ^ 64
  if f = 1 then
    advance t₀ t₁ ≤ timeSliceNs ∨ timeSliceNs < moved
  else if advance t₀ t₁ + t₀ * nsPerSecond % f < (timeSliceNs + 1) * f then
    start + advance t₀ t₁ < 2 ^ 64 ∧ advance t₀ t₁ + start % f < (timeSliceNs + 1) * f
  else
    (2 ^ 64 ≤ start + moved ∨ (timeSliceNs + 1) * f ≤ moved + start % f) ∧
      moved + start % f < 2 ^ 64

/-- As long as the product has never reached `2 ^ 64` its reduction does nothing. -/
theorem reductionHarmless_of_lt (h : t₀ ≤ t₁) (ht : t₁ * nsPerSecond < 2 ^ 64) :
    ReductionHarmless f t₀ t₁ := by
  have hsum := add_advance h
  have hstart : t₀ * nsPerSecond % 2 ^ 64 = t₀ * nsPerSecond := Nat.mod_eq_of_lt (by omega)
  have hmoved : advance t₀ t₁ % 2 ^ 64 = advance t₀ t₁ := Nat.mod_eq_of_lt (by omega)
  have hround : t₀ * nsPerSecond % f ≤ t₀ * nsPerSecond := Nat.mod_le _ _
  rw [ReductionHarmless]
  simp only [hstart, hmoved]
  split_ifs <;> omega

/-- For every frequency and all readings, the test after a dispatch agrees with the exact one iff
the reduction of the two products is harmless. -/
theorem roundRobinNeedResched_exact_iff (hf : 1 ≤ cfg.counterFreq)
    (hf' : cfg.counterFreq ≤ 10 ^ 9) (h : t₀ ≤ t₁) (p : Pid) (c : Cpu) :
    (roundRobinNeedResched cfg t₁ (kernelEntry (runProcess cfg t₀ p c)) = true ↔
        timeSliceNs < t₁ * 10 ^ 9 / cfg.counterFreq - t₀ * 10 ^ 9 / cfg.counterFreq) ↔
      ReductionHarmless cfg.counterFreq t₀ t₁ := by
  have hstamp := lastRunTimestamp_kernelEntry cfg t₀ p c
  generalize kernelEntry (runProcess cfg t₀ p c) = c' at hstamp ⊢
  change (roundRobinNeedResched cfg t₁ c' = true ↔ SliceUsedUp cfg.counterFreq t₀ t₁) ↔ _
  have hexact := not_sliceUsedUp_iff hf h
  have hmod : advance t₀ t₁ % 2 ^ 64 ≤ advance t₀ t₁ := Nat.mod_le _ _
  rw [ReductionHarmless]
  by_cases hone : cfg.counterFreq = 1
  · rw [roundRobinNeedResched_iff_one hone h hstamp, if_pos hone]
    rw [hone, Nat.mod_one, Nat.mul_one] at hexact
    by_cases hused : SliceUsedUp cfg.counterFreq t₀ t₁
    · have : ¬ advance t₀ t₁ + 0 < timeSliceNs + 1 := fun hlt => hexact.mpr hlt (hone ▸ hused)
      simp only [hused, iff_true]
      omega
    · have : advance t₀ t₁ + 0 < timeSliceNs + 1 := hexact.mp (hone ▸ hused)
      simp only [hused, iff_false]
      omega
  · have hslice := slice_product_lt hf'
    have hrest : t₀ * nsPerSecond % 2 ^ 64 % cfg.counterFreq < cfg.counterFreq :=
      Nat.mod_lt _ hf
    rw [roundRobinNeedResched_iff (by omega) hf' h hstamp, if_neg hone, SliceReadsUnused]
    split_ifs with hun
    · -- not used up: the advance is below `2 ^ 64` and reduced already
      have hlt : advance t₀ t₁ % 2 ^ 64 = advance t₀ t₁ := Nat.mod_eq_of_lt (by omega)
      have hfree : ¬ SliceUsedUp cfg.counterFreq t₀ t₁ := hexact.mpr hun
      simp only [hfree, hlt, iff_false, Classical.not_not]
      have hfreq : cfg.counterFreq ≤ 10 ^ 9 := hf'
      omega
    · have hused : SliceUsedUp cfg.counterFreq t₀ t₁ := by
        by_contra hfree
        exact hun (hexact.mp hfree)
      simp only [hused, iff_true]
      omega

def qemuConfig : CpuConfig := ⟨62500000, 0, 0⟩

theorem roundRobinNeedResched_exact_iff_qemu :
    (roundRobinNeedResched qemuConfig 1000000 (kernelEntry (runProcess qemuConfig 5 1 freshCpu)) = true
      ↔ timeSliceNs < 1000000 * 10 ^ 9 / 62500000 - 5 * 10 ^ 9 / 62500000) :=
  (roundRobinNeedResched_exact_iff (show 1 ≤ qemuConfig.counterFreq by decide) (by decide)
    (by decide) 1 freshCpu).mpr (reductionHarmless_of_lt (by decide) (by decide))

/-- Five minutes after power-on one tick of the counter, 16 ns, passes for a used-up slice. -/
theorem tick_preempts : ¬ ∀ (cfg : CpuConfig) (t₀ t₁ : Nat) (p : Pid) (c : Cpu),
    1 ≤ cfg.counterFreq → cfg.counterFreq ≤ 10 ^ 9 → t₀ ≤ t₁ → t₁ < 2 ^ 64 →
    (roundRobinNeedResched cfg t₁ (kernelEntry (runProcess cfg t₀ p c)) = true ↔
      timeSliceNs < t₁ * 10 ^ 9 / cfg.counterFreq - t₀ * 10 ^ 9 / cfg.counterFreq) := by
  intro hall
  have htick := hall qemuConfig 18446744073 18446744074 1 freshCpu (by decide) (by decide)
    (by decide) (by decide)
  revert htick
  decide

end QuestOS
