import Mathlib.Data.BitVec
import QuestOS.Align
import QuestOS.Lib.Trans

/-!
# The set of enabled interrupts

`GICR_ISENABLER0` and `GICR_ICENABLER0` are two views of one word of enable bits: both read back the
word, writing a one to the first sets a bit, writing a one to the second clears it.  The driver
changes one bit by reading the register, setting the bit in the value and writing it back.  That is
harmless for the first register; for the second one the value read has a one for every enabled
interrupt, and all of them are disabled.

An interrupt number above the private ones is left alone, and the functions of `irqdesc.c` take the
number from a descriptor that only `request_irq` fills in.
-/

namespace QuestOS

/-! ### The registers -/

def irqNums : Nat := 1020

theorem thirty_lt_irqNums : 30 < irqNums := by decide

def privateIrqs : Nat := 16 + 16

inductive EnableReg
  | set | clear
  deriving DecidableEq, Repr

structure IrqAction where
  irq : Nat
  name : String
  handler : Nat
  flags : Nat
  devId : Nat
  deriving DecidableEq, Repr

/-- `struct irq_desc`: `action` is the pointer to the entry of `g_irq_actions`, `hwirq` is in its
`irq_data`. -/
structure IrqDesc where
  action : Option IrqAction
  hwirq : Nat
  deriving DecidableEq, Repr

/-- The enable bits of the redistributor, those of the shared interrupts in the distributor, and
`g_irq_descs`. -/
structure IrqState where
  enable : BitVec 32
  shared : Nat → Bool
  desc : Nat → IrqDesc

def IrqState.read (s : IrqState) : EnableReg → BitVec 32
  | .set => s.enable
  | .clear => s.enable

def IrqState.write (s : IrqState) (reg : EnableReg) (val : BitVec 32) : IrqState :=
  match reg with
  | .set => { s with enable := s.enable ||| val }
  | .clear => { s with enable := s.enable &&& ~~~val }

def IrqState.enabled (s : IrqState) (h : Nat) : Bool :=
  if h < privateIrqs then s.enable.getLsbD h else s.shared h

/-! ### `gic-v3.c` and `irqdesc.c` -/

def gicV3IrqMaskBit (hwirq : Nat) (mask : Bool) (s : IrqState) : IrqState :=
  let reg := if mask then EnableReg.clear else .set
  if hwirq < privateIrqs then
    let val := s.read reg ||| (1#32 <<< hwirq)
    s.write reg val
  else s

def gicV3IrqUnmask (hwirq : Nat) (s : IrqState) : IrqState := gicV3IrqMaskBit hwirq false s

def gicV3IrqMask (hwirq : Nat) (s : IrqState) : IrqState := gicV3IrqMaskBit hwirq true s

def enableIrq (hwirq : Nat) (s : IrqState) : IrqState := gicV3IrqUnmask (s.desc hwirq).hwirq s

def disableIrq (hwirq : Nat) (s : IrqState) : IrqState := gicV3IrqMask (s.desc hwirq).hwirq s

def requestIrq (hwirq handler flags : Nat) (name : String) (dev : Nat) (s : IrqState) : IrqState × Int :=
  if irqNums ≤ hwirq then (s, negEinval)
  else if ((s.desc hwirq).action.any fun a => a.handler != handler) then (s, negEexist)
  else
    let action : IrqAction := ⟨hwirq, name, handler, flags, dev⟩
    let s := { s with desc := Function.update s.desc hwirq ⟨some action, hwirq⟩ }
    (enableIrq hwirq s, 0)

/-! ### What the two register writes do -/

variable {s : IrqState} {e h : Nat}

theorem enabled_unmask (s : IrqState) (e h : Nat) :
    (gicV3IrqUnmask e s).enabled h = (s.enabled h || decide (e = h ∧ h < privateIrqs)) := by
  unfold gicV3IrqUnmask gicV3IrqMaskBit
  by_cases he : e < privateIrqs
  · rw [if_pos he]
    simp only [IrqState.enabled, IrqState.read, IrqState.write, Bool.false_eq_true, if_false]
    by_cases hh : h < privateIrqs
    · have hh' : h < 32 := hh
      simp only [hh, if_true, and_true, BitVec.getLsbD_or, BitVec.getLsbD_shiftLeft, hh', decide_true,
        Bool.true_and, BitVec.getLsbD_one]
      by_cases heq : e = h
      · simp [heq]
      · have hbit : (!decide (h < e) && decide (h - e = 0)) = false := by
          simp only [Bool.and_eq_false_iff, Bool.not_eq_false', decide_eq_true_eq, decide_eq_false_iff_not]
          omega
        cases hb : s.enable.getLsbD h <;> simp_all
    · simp [hh]
  · rw [if_neg he]
    have : ¬ (e = h ∧ h < privateIrqs) := by omega
    simp [this]

theorem enabled_mask (s : IrqState) (e h : Nat) :
    (gicV3IrqMask e s).enabled h = (s.enabled h && !decide (e < privateIrqs ∧ h < privateIrqs)) := by
  unfold gicV3IrqMask gicV3IrqMaskBit
  by_cases he : e < privateIrqs
  · rw [if_pos he]
    simp only [IrqState.enabled, IrqState.read, IrqState.write, if_true]
    by_cases hh : h < privateIrqs
    · have hh' : h < 32 := hh
      simp only [he, hh, if_true, and_self, decide_true, Bool.not_true, Bool.and_false, BitVec.getLsbD_and,
        BitVec.getLsbD_not, hh', BitVec.getLsbD_or, Bool.true_and]
      cases s.enable.getLsbD h <;> rfl
    · simp [hh]
  · simp [he]

/-! ### Sequences of calls -/

inductive IrqCall
  | request (h : Fin irqNums) (handler flags : Nat) (name : String) (dev : Nat)
  | enable (h : Fin irqNums)
  | disable (h : Fin irqNums)

def IrqCall.hwirq : IrqCall → Nat
  | .request h _ _ _ _ => h
  | .enable h => h
  | .disable h => h

def IrqCall.run : IrqCall → IrqState → IrqState × Int
  | .request h handler flags name dev, s => requestIrq h handler flags name dev s
  | .enable h, s => (enableIrq h s, 0)
  | .disable h, s => (disableIrq h s, 0)

def IrqCall.next (s : IrqState) (c : IrqCall) : IrqState := (c.run s).1

/-- What a call is for: it changes no interrupt but its own, and that one as its name says. -/
def IrqCall.Ok (s : IrqState) (c : IrqCall) : Prop :=
  (∀ i, i ≠ c.hwirq → (c.next s).enabled i = s.enabled i) ∧
    match c with
    | .request h .. => (c.run s).2 = 0 → (c.next s).enabled h = true
    | .enable h => (c.next s).enabled h = true
    | .disable h => (c.next s).enabled h = false

/-- The states in which a call does what it is for.  An interrupt that was not requested has the number 0 in
its descriptor. -/
def IrqCall.Safe (s : IrqState) : IrqCall → Prop
  | .request h handler .. =>
    (∃ a, (s.desc h).action = some a ∧ a.handler ≠ handler) ∨ h < privateIrqs ∨ s.enabled h = true
  | .enable h =>
    ((s.desc h).action.isSome ∨ h.val = 0) ∧ (h < privateIrqs ∨ s.enabled h = true) ∨
      s.enabled h = true ∧ s.enabled 0 = true
  | .disable h =>
    (h < privateIrqs ∨ s.enabled h = false) ∧
      ((s.desc h).action.isSome ∧ privateIrqs ≤ h ∨ ∀ i, i < privateIrqs → i ≠ h → s.enabled i = false)

def IrqState.DescWf (s : IrqState) : Prop :=
  ∀ h, (s.desc h).hwirq = if (s.desc h).action.isSome then h else 0

theorem desc_gicV3IrqMaskBit (e : Nat) (mask : Bool) (s : IrqState) : (gicV3IrqMaskBit e mask s).desc = s.desc := by
  unfold gicV3IrqMaskBit
  dsimp only
  split
  · cases mask <;> rfl
  · rfl

theorem requestIrq_cases (h : Fin irqNums) (handler flags : Nat) (name : String) (dev : Nat) (s : IrqState) :
    ((∃ a, (s.desc h).action = some a ∧ a.handler ≠ handler) ∧
      requestIrq h handler flags name dev s = (s, negEexist)) ∨
    (¬ ∃ a, (s.desc h).action = some a ∧ a.handler ≠ handler) ∧
      requestIrq h handler flags name dev s = (gicV3IrqUnmask h
        { s with desc := Function.update s.desc h ⟨some ⟨h, name, handler, flags, dev⟩, h⟩ }, 0) := by
  have hany : ((s.desc h).action.any fun a => a.handler != handler) = true ↔
      ∃ a, (s.desc h).action = some a ∧ a.handler ≠ handler := by
    simp [Option.any_eq_true]
  unfold requestIrq
  rw [if_neg (Nat.not_le.mpr h.isLt)]
  by_cases hother : ((s.desc h).action.any fun a => a.handler != handler) = true
  · exact .inl ⟨hany.mp hother, by rw [if_pos hother]⟩
  · refine .inr ⟨mt hany.mpr hother, ?_⟩
    rw [if_neg hother]
    simp only [enableIrq, Function.update_self]

theorem IrqCall.next_descWf (hs : s.DescWf) (c : IrqCall) : (c.next s).DescWf := by
  cases c with
  | request h handler flags name dev =>
    rcases requestIrq_cases h handler flags name dev s with ⟨-, heq⟩ | ⟨-, heq⟩
    · simp only [IrqCall.next, IrqCall.run, heq]
      exact hs
    · simp only [IrqCall.next, IrqCall.run, heq]
      intro i
      rw [gicV3IrqUnmask, desc_gicV3IrqMaskBit]
      dsimp only
      by_cases hi : i = h
      · simp [hi]
      · simp only [Function.update_of_ne hi]
        exact hs i
  | enable h =>
    intro i
    rw [IrqCall.next, IrqCall.run, enableIrq, gicV3IrqUnmask, desc_gicV3IrqMaskBit]
    exact hs i
  | disable h =>
    intro i
    rw [IrqCall.next, IrqCall.run, disableIrq, gicV3IrqMask, desc_gicV3IrqMaskBit]
    exact hs i

/-- Setting the bit of `e` for the interrupt `h` is right if `e` is `h` and private, or nothing changes. -/
theorem unmask_ok_iff (s : IrqState) (e h : Nat) :
    ((∀ i, i ≠ h → (gicV3IrqUnmask e s).enabled i = s.enabled i) ∧ (gicV3IrqUnmask e s).enabled h = true) ↔
      (e = h ∨ privateIrqs ≤ e ∨ s.enabled e = true) ∧ (e = h ∧ h < privateIrqs ∨ s.enabled h = true) := by
  have hiff : ∀ i, (gicV3IrqUnmask e s).enabled i = true ↔ s.enabled i = true ∨ (e = i ∧ i < privateIrqs) := by
    intro i
    rw [enabled_unmask, Bool.or_eq_true, decide_eq_true_eq]
  constructor
  · rintro ⟨hother, hself⟩
    refine ⟨?_, ((hiff h).mp hself).symm⟩
    by_contra hn
    simp only [not_or, Nat.not_le, Bool.not_eq_true] at hn
    have h1 := hother e hn.1
    rw [(hiff e).mpr (.inr ⟨rfl, hn.2.1⟩), hn.2.2] at h1
    cases h1
  · rintro ⟨he, hself⟩
    refine ⟨fun i hi => ?_, (hiff h).mpr hself.symm⟩
    rw [enabled_unmask]
    by_cases hei : e = i ∧ i < privateIrqs
    · obtain ⟨rfl, hlt⟩ := hei
      rcases he with rfl | hle | hen
      · exact absurd rfl hi
      · omega
      · simp [hen]
    · simp [hei]

/-- Clearing through `e` disables every private interrupt if `e` is private, and nothing otherwise. -/
theorem mask_ok_iff (s : IrqState) (e h : Nat) :
    ((∀ i, i ≠ h → (gicV3IrqMask e s).enabled i = s.enabled i) ∧ (gicV3IrqMask e s).enabled h = false) ↔
      (privateIrqs ≤ e ∨ ∀ i, i < privateIrqs → i ≠ h → s.enabled i = false) ∧
        (e < privateIrqs ∧ h < privateIrqs ∨ s.enabled h = false) := by
  by_cases he : e < privateIrqs
  · have hle : ¬ privateIrqs ≤ e := by omega
    simp only [enabled_mask, he, true_and, hle, false_or]
    refine and_congr ⟨fun hall i hi hne => ?_, fun hall i hne => ?_⟩ ?_
    · have := hall i hne
      simpa [hi] using this.symm
    · by_cases hi : i < privateIrqs
      · rw [hall i hi hne]
        rfl
      · simp [hi]
    · by_cases hh : h < privateIrqs <;> simp [hh]
  · have hle : privateIrqs ≤ e := by omega
    simp [enabled_mask, he, hle]

theorem IrqCall.ok_iff_safe (hs : s.DescWf) (c : IrqCall) : c.Ok s ↔ c.Safe s := by
  cases c with
  | request h handler flags name dev =>
    unfold IrqCall.Ok IrqCall.Safe IrqCall.next IrqCall.run
    rcases requestIrq_cases h handler flags name dev s with ⟨hother, heq⟩ | ⟨hown, heq⟩
    · simp only [heq]
      exact ⟨fun _ => .inl hother, fun _ => ⟨fun _ _ => trivial, fun h0 => absurd h0 (by decide)⟩⟩
    · simp only [heq, hown, false_or, forall_const, IrqCall.hwirq]
      refine (unmask_ok_iff _ h h).trans ?_
      simp [IrqState.enabled]
  | enable h =>
    unfold IrqCall.Ok IrqCall.Safe IrqCall.next IrqCall.run enableIrq
    dsimp only [IrqCall.hwirq]
    rw [unmask_ok_iff, hs h]
    by_cases hreq : (s.desc h).action.isSome
    · simp only [hreq, if_true, true_or, true_and]
      tauto
    · -- interrupt 0 is enabled in its place
      have hpos : 0 < privateIrqs := by decide
      have hle : ¬ privateIrqs ≤ 0 := by decide
      simp only [hreq, Bool.false_eq_true, if_false, false_or, hle]
      by_cases h0 : h.val = 0
      · simp [h0, hpos]
      · simp only [h0, Ne.symm h0, false_or, false_and]
        exact and_comm
  | disable h =>
    unfold IrqCall.Ok IrqCall.Safe IrqCall.next IrqCall.run disableIrq
    dsimp only [IrqCall.hwirq]
    rw [mask_ok_iff, hs h]
    by_cases hreq : (s.desc h).action.isSome
    · simp only [hreq, if_true, true_and, and_self]
      exact and_comm
    · have hpos : 0 < privateIrqs := by decide
      have hle : ¬ privateIrqs ≤ 0 := by decide
      simp only [hreq, Bool.false_eq_true, if_false, false_and, false_or, hpos, hle, true_and]
      exact and_comm

/-! ### Runs -/

def irqSystem : Trans.System IrqState IrqCall where
  init s := ∀ h, s.desc h = ⟨none, 0⟩
  step s c s' := s' = c.next s

theorem descWf_of_reachable (h : irqSystem.Reachable s) : s.DescWf := by
  refine h.induction (P := IrqState.DescWf) (fun s hs i => ?_) fun s c s' _ hs hstep => ?_
  · rw [hs i]
    rfl
  · obtain rfl : s' = c.next s := hstep
    exact IrqCall.next_descWf hs c

/-- In every run the calls that do what they are for are exactly those made in a safe state. -/
theorem irq_run_ok_iff {tr : List (Trans.Step IrqState IrqCall)} (hrun : irqSystem.Run tr s) :
    ∀ st ∈ tr, (st.label.Ok st.pre ↔ st.label.Safe st.pre) := by
  intro st hst
  exact IrqCall.ok_iff_safe (descWf_of_reachable (hrun.mem_step hst).1) st.label

def quietIrqs : IrqState := ⟨0, fun _ => false, fun _ => ⟨none, 0⟩⟩

def timerIrq : Fin irqNums := ⟨30, thirty_lt_irqNums⟩

def otherIrq : Fin irqNums := ⟨27, by decide⟩

def requestTimer : IrqCall := .request timerIrq 0x1000 0 "arch_timer_irq" 0

def requestOther : IrqCall := .request otherIrq 0x2000 0 "other" 0

/-- Requesting an interrupt and disabling it again, when it is the only one. -/
theorem request_disable_ok :
    requestTimer.Ok quietIrqs ∧ (IrqCall.disable timerIrq).Ok (requestTimer.next quietIrqs) := by
  have hrun : irqSystem.Run [⟨requestTimer.next quietIrqs, .disable timerIrq, _⟩,
      ⟨quietIrqs, requestTimer, requestTimer.next quietIrqs⟩] _ :=
    .cons (.cons (.nil fun _ => rfl) rfl) rfl
  have h1 := irq_run_ok_iff hrun _ (List.mem_cons_of_mem _ List.mem_cons_self)
  have h2 := irq_run_ok_iff hrun _ List.mem_cons_self
  refine ⟨h1.mpr (.inr (.inl (by decide))), h2.mpr ⟨.inl (by decide), .inr ?_⟩⟩
  decide +kernel

/-- With a second interrupt enabled, disabling the first disables both. -/
theorem disable_disables_both :
    irqSystem.Reachable (requestOther.next (requestTimer.next quietIrqs)) ∧
      (requestOther.next (requestTimer.next quietIrqs)).enabled 27 = true ∧
      ((IrqCall.disable timerIrq).next (requestOther.next (requestTimer.next quietIrqs))).enabled 27 = false ∧
      ¬ (IrqCall.disable timerIrq).Ok (requestOther.next (requestTimer.next quietIrqs)) := by
  have h1 : (requestOther.next (requestTimer.next quietIrqs)).enabled 27 = true := by decide +kernel
  have h2 : ((IrqCall.disable timerIrq).next (requestOther.next (requestTimer.next quietIrqs))).enabled 27 =
      false := by decide +kernel
  refine ⟨⟨_, .cons (.cons (.nil fun _ => rfl) rfl) rfl⟩, h1, h2, fun hok => ?_⟩
  have h3 := hok.1 27 (by decide)
  rw [h1, h2] at h3
  cases h3

end QuestOS
