import QuestOS.Irq.Enable

/-!
# Interrupt dispatch

`gic_v3_handle_irq` takes the identifier of an interrupt from the CPU interface and calls the handler of
its descriptor.  Identifiers have 24 bits; `__gic_handle_irq` tells the special ones apart, and nothing
compares the others with the number of descriptors.

The table of descriptors is described by the calls of `request_irq` that returned 0: the descriptor of an
interrupt is that of the last of them (`desc_runRequests`).
-/

namespace QuestOS

/-! ### The handler -/

/-- What handling an interrupt does: a call of a handler with the interrupt and its `dev`, a call of
`irq_default_handler`, or a write to `ICC_EOIR1_EL1`. -/
inductive IrqEvent
  | handler (handler hwirq dev : Nat)
  | default (hwirq : Nat)
  | eoi (irqnr : Nat)
  deriving DecidableEq, Repr

def gicIrqnrIsSpecial (irqnr : Nat) : Bool := 1020 ≤ irqnr && irqnr ≤ 1023

def handleFasteoiIrq (desc : IrqDesc) : IrqEvent :=
  match desc.action with
  | some action => .handler action.handler desc.hwirq action.devId
  | none => .default desc.hwirq

/-- `none` is an access outside of `g_irq_descs`. -/
def genericHandleDomainIrq (hwirq : Nat) (s : IrqState) : Option IrqEvent :=
  if hwirq < irqNums then some (handleFasteoiIrq (s.desc hwirq)) else none

def gicHandleIrq (irqnr : Nat) (s : IrqState) : Option (List IrqEvent) :=
  if gicIrqnrIsSpecial irqnr then some []
  else (genericHandleDomainIrq irqnr s).map fun e => [e, .eoi irqnr]

def gicV3HandleIrq (iar : BitVec 24) (s : IrqState) : Option (List IrqEvent) := gicHandleIrq iar.toNat s

/-! ### Requests -/

structure IrqRequest where
  hwirq : Nat
  handler : Nat
  flags : Nat
  name : String
  dev : Nat

def IrqRequest.run (r : IrqRequest) (s : IrqState) : IrqState × Int :=
  requestIrq r.hwirq r.handler r.flags r.name r.dev s

def runRequests : List IrqRequest → IrqState → IrqState × List IrqRequest
  | [], s => (s, [])
  | r :: rs, s =>
    let (s', err) := r.run s
    let (t, granted) := runRequests rs s'
    (t, if err = 0 then r :: granted else granted)

def IrqRequest.desc (r : IrqRequest) : IrqDesc := ⟨some ⟨r.hwirq, r.name, r.handler, r.flags, r.dev⟩, r.hwirq⟩

variable {s : IrqState} {r : IrqRequest} {h : Nat}

theorem IrqRequest.run_cases (r : IrqRequest) (s : IrqState) :
    (r.run s).2 ≠ 0 ∧ (r.run s).1 = s ∨
      (r.run s).2 = 0 ∧ r.hwirq < irqNums ∧ (r.run s).1.desc = Function.update s.desc r.hwirq r.desc := by
  unfold IrqRequest.run requestIrq
  split
  · exact .inl ⟨show negEinval ≠ 0 by decide, rfl⟩
  · split
    · exact .inl ⟨show negEexist ≠ 0 by decide, rfl⟩
    · exact .inr ⟨rfl, by omega, desc_gicV3IrqMaskBit ..⟩

def lastGranted (h : Nat) (granted : List IrqRequest) : Option IrqRequest :=
  (granted.filter fun r => r.hwirq = h).getLast?

theorem lastGranted_cons (h : Nat) (r : IrqRequest) (rs : List IrqRequest) :
    lastGranted h (r :: rs) = (lastGranted h rs).or (if r.hwirq = h then some r else none) := by
  unfold lastGranted
  by_cases hr : r.hwirq = h
  · rw [List.filter_cons_of_pos (by simpa using hr), List.getLast?_cons, if_pos hr]
    cases (rs.filter fun r => r.hwirq = h).getLast? <;> rfl
  · rw [List.filter_cons_of_neg (by simpa using hr), if_neg hr, Option.or_none]

theorem desc_runRequests (rs : List IrqRequest) (s : IrqState) (h : Nat) :
    (runRequests rs s).1.desc h = ((lastGranted h (runRequests rs s).2).map IrqRequest.desc).getD (s.desc h) := by
  induction rs generalizing s with
  | nil => rfl
  | cons r rs ih =>
    rw [runRequests]
    dsimp only
    rw [ih]
    rcases r.run_cases s with ⟨herr, hs⟩ | ⟨herr, -, hs⟩
    · rw [if_neg herr, hs]
    · rw [if_pos herr, lastGranted_cons, hs]
      cases hlast : lastGranted h (runRequests rs (r.run s).1).2 with
      | some c => rfl
      | none =>
        by_cases hr : r.hwirq = h
        · rw [if_pos hr, ← hr]
          exact Function.update_self ..
        · rw [if_neg hr]
          exact Function.update_of_ne (Ne.symm hr) ..

theorem hwirq_lt_of_granted (rs : List IrqRequest) (s : IrqState) : ∀ r ∈ (runRequests rs s).2, r.hwirq < irqNums := by
  induction rs generalizing s with
  | nil => nofun
  | cons r rs ih =>
    rw [runRequests]
    dsimp only
    rcases r.run_cases s with ⟨herr, -⟩ | ⟨herr, hlt, -⟩
    · rw [if_neg herr]
      exact ih _
    · rw [if_pos herr, List.forall_mem_cons]
      exact ⟨hlt, ih _⟩

theorem lastGranted_eq_some {granted : List IrqRequest} (hlast : lastGranted h granted = some r) :
    r ∈ granted ∧ r.hwirq = h := by
  have hmem := List.mem_of_getLast? hlast
  simpa using hmem

/-! ### Dispatch -/

structure DispatchOk (rs : List IrqRequest) (s : IrqState) (iar : BitVec 24) (events : List IrqEvent) : Prop where
  errors : ∀ r : IrqRequest, (r.run (runRequests rs s).1).2 ≠ 0 → (r.run (runRequests rs s).1).1 = (runRequests rs s).1
  handler : ∀ c, lastGranted iar.toNat (runRequests rs s).2 = some c → events.head? = some (.handler c.handler iar.toNat c.dev)
  special : gicIrqnrIsSpecial iar.toNat = true → events = []
  eoi : gicIrqnrIsSpecial iar.toNat = false → events.count (.eoi iar.toNat) = 1

/-- An interrupt is dispatched as expected, whatever was requested before, if and only if it is special or has
a descriptor. -/
theorem irq_dispatch_iff (rs : List IrqRequest) (s : IrqState) (iar : BitVec 24) :
    (∃ events, gicV3HandleIrq iar (runRequests rs s).1 = some events ∧ DispatchOk rs s iar events) ↔
      iar.toNat < irqNums ∨ gicIrqnrIsSpecial iar.toNat = true := by
  have herrors : ∀ r : IrqRequest, (r.run (runRequests rs s).1).2 ≠ 0 →
      (r.run (runRequests rs s).1).1 = (runRequests rs s).1 := by
    intro r herr
    rcases r.run_cases (runRequests rs s).1 with h1 | h1
    · exact h1.2
    · exact absurd h1.1 herr
  unfold gicV3HandleIrq gicHandleIrq
  by_cases hsp : gicIrqnrIsSpecial iar.toNat = true
  · simp only [hsp, if_true, or_true, iff_true]
    refine ⟨[], rfl, herrors, fun c hc => ?_, fun _ => rfl, fun h => absurd h (by rw [hsp]; decide)⟩
    -- a special interrupt has no descriptor
    obtain ⟨hmem, hirq⟩ := lastGranted_eq_some hc
    have hlt := hwirq_lt_of_granted rs s c hmem
    unfold gicIrqnrIsSpecial at hsp
    unfold irqNums at hlt
    simp only [Bool.and_eq_true, decide_eq_true_eq] at hsp
    omega
  · have hsp' : gicIrqnrIsSpecial iar.toNat = false := Bool.eq_false_iff.mpr hsp
    simp only [hsp', Bool.false_eq_true, if_false, or_false]
    constructor
    · rintro ⟨events, hrun, -⟩
      by_contra hge
      rw [genericHandleDomainIrq, if_neg hge] at hrun
      cases hrun
    · intro hlt
      rw [genericHandleDomainIrq, if_pos hlt]
      refine ⟨_, rfl, herrors, fun c hc => ?_, fun h => absurd h hsp, fun _ => ?_⟩
      · obtain ⟨-, hirq⟩ := lastGranted_eq_some hc
        rw [desc_runRequests, hc, ← hirq]
        rfl
      · have hne : handleFasteoiIrq ((runRequests rs s).1.desc iar.toNat) ≠ .eoi iar.toNat := by
          unfold handleFasteoiIrq
          split
          · nofun
          · nofun
        rw [List.count_cons_of_ne hne, List.count_singleton_self]

def noIrqs : IrqState := ⟨0, fun _ => false, fun _ => ⟨none, 0⟩⟩

/-- The first locality-specific interrupt has no descriptor. -/
theorem lpi_outside :
    ¬ ∃ events, gicV3HandleIrq 8192#24 (runRequests [] noIrqs).1 = some events ∧ DispatchOk [] noIrqs 8192#24 events := by
  rintro ⟨events, hrun, -⟩
  have hnone : gicV3HandleIrq 8192#24 (runRequests [] noIrqs).1 = none := by decide
  rw [hnone] at hrun
  cases hrun

end QuestOS
