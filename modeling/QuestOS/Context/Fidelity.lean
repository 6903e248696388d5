import Mathlib.Algebra.Group.Nat.Defs
import QuestOS.Context.Switch
import QuestOS.Lib.Trans

/-!
# Context-switch fidelity

One CPU that dispatches processes from idle, takes exceptions from them and either returns to them
or goes back to idle.  The assembly between these points is executed (`QuestOS.Context.Switch`); C
code and user code may do anything to the registers and the memory they own, so `idleRun`, `userRun`
and `handler` are bounded only by what they must leave alone.

`last` and `call` are observers: no step reads them.  `last p` is what `p` has to find when it is
resumed, `call` what idle has to find when `process_cpu_context_switch` returns.
-/

namespace QuestOS.Context

open A64

def threadSize : Nat := 2 ^ 14

def initEl0Pstate : Nat := 0x01000000

/-! ### Memory layout -/

/-- The memory the switch code works on: the `process_struct`s of a set of processes, whose first
field is `sp`, their kernel stacks, the stack of idle and the per-CPU `entry_task`, all of them
disjoint. -/
structure Layout where
  sym : Symbols
  percpuBase : Nat
  procs : Nat → Prop
  kernelStack : Nat → Nat
  idleLo : Nat
  idleHi : Nat
  stack_stack : ∀ p q, procs p → procs q → p ≠ q →
    kernelStack p + threadSize ≤ kernelStack q ∨ kernelStack q + threadSize ≤ kernelStack p
  proc_stack : ∀ p q, procs p → procs q →
    p + 8 ≤ kernelStack q ∨ kernelStack q + threadSize ≤ p
  idle_stack : ∀ p, procs p → idleHi ≤ kernelStack p ∨ kernelStack p + threadSize ≤ idleLo
  idle_proc : ∀ p, procs p → p + 8 ≤ idleLo ∨ idleHi ≤ p
  entry_stack : ∀ p, procs p → sym.entryTask - sym.percpuStart + percpuBase + 8 ≤ kernelStack p ∨
    kernelStack p + threadSize ≤ sym.entryTask - sym.percpuStart + percpuBase
  entry_proc : ∀ p, procs p → sym.entryTask - sym.percpuStart + percpuBase ≠ p
  entry_idle : sym.entryTask - sym.percpuStart + percpuBase + 8 ≤ idleLo ∨
    idleHi ≤ sym.entryTask - sym.percpuStart + percpuBase

def Layout.entryTask (L : Layout) : Nat := L.sym.entryTask - L.sym.percpuStart + L.percpuBase

def Layout.frame (L : Layout) (p : Nat) : Nat := L.kernelStack p + threadSize - ptRegsSize

def initRegs (entryPoint spEl0 : Nat) : UserRegs := ⟨fun _ => 0, spEl0, entryPoint, initEl0Pstate⟩

def processCalculateInitRegval (L : Layout) (p entryPoint spEl0 : Nat) (mem : Nat → Nat) : Nat → Nat :=
  let sp := L.frame p
  let mem := Function.update mem p sp
  let mem := storeWords mem sp 34 fun _ => 0
  let mem := Function.update mem (sp + sPc) entryPoint
  let mem := Function.update mem (sp + 248) spEl0
  Function.update mem (sp + 264) initEl0Pstate

/-! ### The transition system -/

@[ext] structure IdleRegs where
  x : Fin 12 → Nat
  sp : Nat

def idleRegs (m : Machine) : IdleRegs := ⟨fun j => m.x (19 + j), m.sp⟩

/-- Who executes: idle, a process at EL0, or the exception handler on the kernel stack of a
process, before and after its C part. -/
inductive Place
  | idle
  | user (p : Nat)
  | handler (p : Nat)
  | exiting (p : Nat)
  deriving DecidableEq

structure Sys where
  m : Machine
  place : Place
  loaded : List Nat
  last : Nat → UserRegs
  call : IdleRegs

inductive Label
  | load (p entryPoint spEl0 : Nat)
  | idleRun
  | dispatch (p : Nat)
  | userRun
  | exception
  | handler (result : Option Nat)
  | exit
  | resched

def Place.running : Place → Option Nat
  | .idle => none
  | .user p | .handler p | .exiting p => some p

/-- The memory the switch code relies on to stay as it is: the `sp` fields of the loaded processes
and the frames of those that are not in `except`. -/
def KeepsFrames (L : Layout) (s : Sys) (except : Option Nat) (mem' : Nat → Nat) : Prop :=
  (∀ p ∈ s.loaded, mem' p = s.m.mem p) ∧
    ∀ p ∈ s.loaded, except ≠ some p → ∀ k < 34, mem' (L.frame p + 8 * k) = s.m.mem (L.frame p + 8 * k)

def UserRegs.setResult (r : UserRegs) : Option Nat → UserRegs
  | none => r
  | some v => { r with x := Function.update r.x 0 v }

inductive Sys.Step (L : Layout) (s : Sys) : Label → Sys → Prop
  | load {p entryPoint spEl0 : Nat} : L.procs p → p ∉ s.loaded →
      Sys.Step L s (.load p entryPoint spEl0)
        { s with m := { s.m with mem := processCalculateInitRegval L p entryPoint spEl0 s.m.mem },
                 loaded := p :: s.loaded,
                 last := Function.update s.last p (initRegs entryPoint spEl0) }
  | idleRun {m' : Machine} : s.place = .idle → L.idleLo + 96 ≤ m'.sp → m'.sp ≤ L.idleHi →
      m'.sys .tpidr = s.m.sys .tpidr → KeepsFrames L s none m'.mem →
      Sys.Step L s .idleRun { s with m := m' }
  /-- `run_process` has written `entry_task` and calls the switch with `x0 = &proc->sp`. -/
  | dispatch {p : Nat} : s.place = .idle → p ∈ s.loaded → s.m.x 0 = p → s.m.mem L.entryTask = p →
      Sys.Step L s (.dispatch p)
        { s with m := processCpuContextSwitch s.m, place := .user p, call := idleRegs s.m }
  | userRun {p : Nat} {m' : Machine} : s.place = .user p → m'.sp = s.m.sp → m'.mem = s.m.mem →
      m'.sys .tpidr = s.m.sys .tpidr → Sys.Step L s .userRun { s with m := m' }
  | exception {p : Nat} : s.place = .user p →
      Sys.Step L s .exception
        { s with m := exceptionEntry L.sym s.m, place := .handler p,
                 last := Function.update s.last p (userRegs s.m) }
  /-- The C handler returns with `sp` and `current` as they were and leaves `entry_task` and the
  saved contexts alone, except that an `svc` stores its result in `regs[0]`. -/
  | handler {p : Nat} {m' : Machine} {result : Option Nat} : s.place = .handler p →
      m'.sp = s.m.sp → m'.sys .spEl0 = s.m.sys .spEl0 → m'.sys .tpidr = s.m.sys .tpidr →
      KeepsFrames L s (some p) m'.mem →
      (∀ k < 34, m'.mem (L.frame p + 8 * k) =
        if k = 0 then result.getD (s.m.mem (L.frame p)) else s.m.mem (L.frame p + 8 * k)) →
      (∀ a, s.call.sp - 96 ≤ a → a < s.call.sp → m'.mem a = s.m.mem a) →
      m'.mem L.entryTask = s.m.mem L.entryTask →
      Sys.Step L s (.handler result)
        { s with m := m', place := .exiting p,
                 last := Function.update s.last p ((s.last p).setResult result) }
  | exit {p : Nat} : s.place = .exiting p →
      Sys.Step L s .exit { s with m := retToUser s.m, place := .user p }
  | resched {p : Nat} : s.place = .exiting p →
      Sys.Step L s .resched { s with m := processResched L.sym s.m, place := .idle }

structure Sys.Initial (L : Layout) (s : Sys) : Prop where
  place : s.place = .idle
  loaded : s.loaded = []
  tpidr : s.m.sys .tpidr = L.percpuBase
  spLo : L.idleLo + 96 ≤ s.m.sp
  spHi : s.m.sp ≤ L.idleHi

def switchSystem (L : Layout) : Trans.System Sys Label where
  init := Sys.Initial L
  step := Sys.Step L

/-! ### The invariant -/

variable {L : Layout} {s s' : Sys} {p q a : Nat}

structure Saved (L : Layout) (s : Sys) (p : Nat) : Prop where
  sp : s.m.mem p = L.frame p
  regs : Holds s.m.mem (L.frame p) (s.last p)

structure IdleSaved (L : Layout) (s : Sys) (p : Nat) : Prop where
  sp : s.m.mem p = s.call.sp - 96
  lo : L.idleLo + 96 ≤ s.call.sp
  hi : s.call.sp ≤ L.idleHi
  regs : ∀ j : Fin 12, s.m.mem (s.call.sp - 96 + 8 * j) = s.call.x j

def PlaceInv (L : Layout) (s : Sys) : Prop :=
  match s.place with
  | .idle => L.idleLo + 96 ≤ s.m.sp ∧ s.m.sp ≤ L.idleHi
  | .user p => p ∈ s.loaded ∧ s.m.sp = L.frame p + ptRegsSize ∧ s.m.mem L.entryTask = p ∧
      IdleSaved L s p
  | .handler p | .exiting p => p ∈ s.loaded ∧ s.m.sp = L.frame p ∧ s.m.sys .spEl0 = p ∧
      s.m.mem L.entryTask = p ∧ Holds s.m.mem (L.frame p) (s.last p) ∧ IdleSaved L s p

structure SwitchInv (L : Layout) (s : Sys) : Prop where
  tpidr : s.m.sys .tpidr = L.percpuBase
  procs : ∀ p ∈ s.loaded, L.procs p
  saved : ∀ p ∈ s.loaded, s.place.running ≠ some p → Saved L s p
  place : PlaceInv L s

/-! ### Addresses that do not meet -/

private theorem frame_eq (L : Layout) (p : Nat) : L.frame p = L.kernelStack p + 16112 := by
  simp only [Layout.frame, threadSize, ptRegsSize]
  omega

def Apart (L : Layout) (p a : Nat) : Prop := a ≠ p ∧ (a < L.frame p ∨ L.frame p + ptRegsSize ≤ a)

private theorem Layout.apart_proc (hp : L.procs p) (hq : L.procs q) (hne : q ≠ p) : Apart L p q := by
  have := L.proc_stack q p hq hp
  simp only [Apart, frame_eq, threadSize, ptRegsSize] at *
  omega

private theorem Layout.apart_frame {k : Nat} (hp : L.procs p) (hq : L.procs q) (hne : q ≠ p)
    (hk : k < 34) : Apart L p (L.frame q + 8 * k) := by
  have h1 := L.proc_stack p q hp hq
  have h2 := L.stack_stack p q hp hq (Ne.symm hne)
  simp only [Apart, frame_eq, threadSize, ptRegsSize] at *
  omega

private theorem Layout.apart_idle (hp : L.procs p) (hlo : L.idleLo ≤ a) (hhi : a < L.idleHi) :
    Apart L p a := by
  have h1 := L.idle_proc p hp
  have h2 := L.idle_stack p hp
  simp only [Apart, frame_eq, threadSize, ptRegsSize] at *
  omega

private theorem Layout.apart_entryTask (hp : L.procs p) : Apart L p L.entryTask := by
  have h1 := L.entry_proc p hp
  have h2 := L.entry_stack p hp
  simp only [Apart, Layout.entryTask, frame_eq, threadSize, ptRegsSize] at *
  omega

private theorem Layout.proc_not_frame (hp : L.procs p) :
    p < L.frame p ∨ L.frame p + ptRegsSize ≤ p := by
  have := L.proc_stack p p hp hp
  simp only [frame_eq, threadSize, ptRegsSize] at *
  omega

/-! ### How memory changes carry over -/

private theorem Holds.congr {mem mem' : Nat → Nat} {r : UserRegs} (h : Holds mem a r)
    (hm : ∀ k < 34, mem' (a + 8 * k) = mem (a + 8 * k)) : Holds mem' a r :=
  fun k hk => (hm k hk).trans (h k hk)

private theorem IdleSaved.congr (h : IdleSaved L s p) (hcall : s'.call = s.call)
    (hsp : s'.m.mem p = s.m.mem p)
    (hm : ∀ a, s.call.sp - 96 ≤ a → a < s.call.sp → s'.m.mem a = s.m.mem a) : IdleSaved L s' p := by
  have hlo := h.lo
  refine ⟨by rw [hsp, hcall, h.sp], by rw [hcall]; exact h.lo, by rw [hcall]; exact h.hi, fun j => ?_⟩
  rw [hcall, ← h.regs j]
  exact hm _ (by omega) (by omega)

/-! ### Loading a process -/

variable {entryPoint spEl0 : Nat}

private theorem initRegval_apart {mem : Nat → Nat} (h : Apart L p a) :
    processCalculateInitRegval L p entryPoint spEl0 mem a = mem a := by
  obtain ⟨hp, hf⟩ := h
  rw [ptRegsSize] at hf
  unfold processCalculateInitRegval sPc
  rw [Function.update_of_ne (by omega), Function.update_of_ne (by omega),
    Function.update_of_ne (by omega), storeWords_out (by omega), Function.update_of_ne hp]

private theorem initRegval_sp {mem : Nat → Nat} (hp : L.procs p) :
    processCalculateInitRegval L p entryPoint spEl0 mem p = L.frame p := by
  have hf := L.proc_not_frame hp
  rw [ptRegsSize] at hf
  unfold processCalculateInitRegval sPc
  rw [Function.update_of_ne (by omega), Function.update_of_ne (by omega),
    Function.update_of_ne (by omega), storeWords_out (by omega), Function.update_self]

private theorem initRegval_holds (L : Layout) (p entryPoint spEl0 : Nat) (mem : Nat → Nat) :
    Holds (processCalculateInitRegval L p entryPoint spEl0 mem) (L.frame p) (initRegs entryPoint spEl0) := by
  intro k hk
  unfold processCalculateInitRegval sPc
  generalize L.frame p = b
  by_cases h33 : k = 33
  · subst h33
    rw [show b + 8 * 33 = b + 264 by omega, Function.update_self]
    rfl
  rw [Function.update_of_ne (by omega)]
  by_cases h31 : k = 31
  · subst h31
    rw [show b + 8 * 31 = b + 248 by omega, Function.update_self]
    rfl
  rw [Function.update_of_ne (by omega)]
  by_cases h32 : k = 32
  · subst h32
    rw [show b + 8 * 32 = b + 256 by omega, Function.update_self]
    rfl
  rw [Function.update_of_ne (by omega), storeWords_at hk]
  have hlt : k < 31 := by omega
  simp [UserRegs.word, initRegs, hlt]

private theorem SwitchInv.load (h : SwitchInv L s) (hp : L.procs p)
    (hnew : p ∉ s.loaded) :
    SwitchInv L { s with m := { s.m with mem := processCalculateInitRegval L p entryPoint spEl0 s.m.mem },
                         loaded := p :: s.loaded,
                         last := Function.update s.last p (initRegs entryPoint spEl0) } := by
  have hne : ∀ q ∈ s.loaded, q ≠ p := fun q hq e => hnew (e ▸ hq)
  -- everything that belongs to another process or to idle is untouched
  have hsp : ∀ q ∈ s.loaded, processCalculateInitRegval L p entryPoint spEl0 s.m.mem q = s.m.mem q :=
    fun q hq => initRegval_apart (Layout.apart_proc hp (h.procs q hq) (hne q hq))
  have hfr : ∀ q ∈ s.loaded, ∀ k < 34,
      processCalculateInitRegval L p entryPoint spEl0 s.m.mem (L.frame q + 8 * k) =
        s.m.mem (L.frame q + 8 * k) :=
    fun q hq k hk => initRegval_apart (Layout.apart_frame hp (h.procs q hq) (hne q hq) hk)
  have hidle : ∀ q, IdleSaved L s q → q ∈ s.loaded →
      IdleSaved L { s with m := { s.m with mem := processCalculateInitRegval L p entryPoint spEl0 s.m.mem },
                           loaded := p :: s.loaded,
                           last := Function.update s.last p (initRegs entryPoint spEl0) } q := by
    intro q hi hq
    have hlo := hi.lo
    have hhi := hi.hi
    exact hi.congr rfl (hsp q hq) fun a h1 h2 =>
      initRegval_apart (Layout.apart_idle hp (by omega) (by omega))
  refine ⟨h.tpidr, ?_, ?_, ?_⟩
  · intro q hq
    rcases List.mem_cons.mp hq with rfl | hq
    · exact hp
    · exact h.procs q hq
  · intro q hq hrun
    by_cases hqp : q = p
    · subst hqp
      refine ⟨initRegval_sp hp, ?_⟩
      simpa using initRegval_holds L q entryPoint spEl0 s.m.mem
    · have hq' : q ∈ s.loaded := (List.mem_cons.mp hq).resolve_left hqp
      obtain ⟨h1, h2⟩ := h.saved q hq' hrun
      refine ⟨by rw [← h1]; exact hsp q hq', ?_⟩
      simpa [hqp] using h2.congr (hfr q hq')
  · have hpl := h.place
    unfold PlaceInv at hpl ⊢
    dsimp only
    split at hpl
    · exact hpl
    · obtain ⟨hq, h1, h2, h3⟩ := hpl
      refine ⟨List.mem_cons_of_mem _ hq, h1, ?_, hidle _ h3 hq⟩
      rw [← h2]
      exact initRegval_apart (Layout.apart_entryTask hp)
    all_goals
      obtain ⟨hq, h1, h2, hE, h3, h4⟩ := hpl
      refine ⟨List.mem_cons_of_mem _ hq, h1, h2, ?_, ?_, hidle _ h4 hq⟩
      · rw [initRegval_apart (Layout.apart_entryTask hp), hE]
      · rw [Function.update_of_ne (hne _ hq)]
        exact h3.congr (hfr _ hq)

/-! ### Dispatch -/

private theorem switchMem_out {m : Machine} (hp : a ≠ m.x 0) (ha : a < m.sp - 96 ∨ m.sp - 96 + 96 ≤ a) :
    switchMem m a = m.mem a := by
  rw [switchMem, Function.update_of_ne hp, storeWords_out (by omega)]

/-- What a dispatch does: the process continues with its saved registers, idle's are on its stack. -/
private theorem SwitchInv.dispatch (h : SwitchInv L s) (hpl : s.place = .idle) (hp : p ∈ s.loaded)
    (hx : s.m.x 0 = p) (hE : s.m.mem L.entryTask = p) :
    userRegs (processCpuContextSwitch s.m) = s.last p ∧
      SwitchInv L { s with m := processCpuContextSwitch s.m, place := .user p, call := idleRegs s.m } := by
  have hproc := h.procs p hp
  have hplace := h.place
  simp only [PlaceInv, hpl] at hplace
  obtain ⟨hlo, hhi⟩ := hplace
  have hsaved : ∀ q ∈ s.loaded, Saved L s q := fun q hq => h.saved q hq (by simp [hpl, Place.running])
  -- the words of a process other than the `sp` field written are not on idle's stack
  have hout : ∀ q ∈ s.loaded, q ≠ p → switchMem s.m q = s.m.mem q := by
    intro q hq hne
    have := L.idle_proc q (h.procs q hq)
    exact switchMem_out (by rw [hx]; exact hne) (by omega)
  have hframe : ∀ q ∈ s.loaded, ∀ k < 34, switchMem s.m (L.frame q + 8 * k) = s.m.mem (L.frame q + 8 * k) := by
    intro q hq k hk
    have h1 := L.idle_stack q (h.procs q hq)
    have h2 := L.proc_stack p q hproc (h.procs q hq)
    rw [frame_eq]
    simp only [threadSize] at h1 h2
    exact switchMem_out (by rw [hx]; omega) (by omega)
  have hidle := L.idle_proc p hproc
  have hsp : s.m.mem (s.m.x 0) = L.frame p := by rw [hx]; exact (hsaved p hp).sp
  obtain ⟨hregs, hsp', htp, hmem⟩ := processCpuContextSwitch_eq (m := s.m) (r := s.last p) (by omega)
    (by rw [hx]; omega) (by rw [hsp]; exact (hsaved p hp).regs.congr (hframe p hp))
  refine ⟨hregs, htp.trans h.tpidr, h.procs, ?_, ?_⟩
  · intro q hq hrun
    have hne : q ≠ p := fun e => hrun (by simp [Place.running, e])
    refine ⟨?_, ?_⟩
    · show (processCpuContextSwitch s.m).mem q = _
      rw [hmem, hout q hq hne]
      exact (hsaved q hq).sp
    · show Holds (processCpuContextSwitch s.m).mem _ _
      rw [hmem]
      exact (hsaved q hq).regs.congr (hframe q hq)
  · refine ⟨hp, by rw [← hsp]; exact hsp', ?_, ⟨?_, hlo, hhi, fun j => ?_⟩⟩
    · show (processCpuContextSwitch s.m).mem _ = _
      rw [hmem, ← hE]
      have h1 := L.entry_proc p hproc
      have h2 := L.entry_idle
      refine switchMem_out ?_ ?_
      · rw [hx]
        exact h1
      · simp only [Layout.entryTask]
        omega
    · show (processCpuContextSwitch s.m).mem p = _
      rw [hmem, switchMem, hx, Function.update_self]
      rfl
    · show (processCpuContextSwitch s.m).mem (s.m.sp - 96 + 8 * j) = s.m.x (19 + j)
      rw [hmem, switchMem, hx, Function.update_of_ne (by omega), storeWords_at (by omega)]

/-! ### Exceptions -/

private theorem frameStore_out {mem f : Nat → Nat} (ha : a < L.frame p ∨ L.frame p + ptRegsSize ≤ a) :
    storeWords mem (L.frame p) 34 f a = mem a :=
  storeWords_out (by rw [ptRegsSize] at ha; omega)

private theorem SwitchInv.exception (h : SwitchInv L s) (hpl : s.place = .user p) :
    SwitchInv L { s with m := exceptionEntry L.sym s.m, place := .handler p,
                         last := Function.update s.last p (userRegs s.m) } := by
  have hplace := h.place
  simp only [PlaceInv, hpl] at hplace
  obtain ⟨hp, hsp, hE, hidle⟩ := hplace
  have hproc := h.procs p hp
  have hsub : s.m.sp - ptRegsSize = L.frame p := by omega
  have hptr : entryTaskPtr L.sym s.m = L.entryTask := by
    rw [entryTaskPtr, h.tpidr, Layout.entryTask]
  obtain ⟨hsp', hcur, htp, hmem⟩ := exceptionEntry_eq L.sym (m := s.m) (by omega) (by
    rw [hptr, hsub, hsp]
    exact (Layout.apart_entryTask hproc).2)
  rw [hsub] at hsp' hmem
  rw [hptr] at hcur
  refine ⟨htp.trans h.tpidr, h.procs, ?_, ?_⟩
  · intro q hq hrun
    have hne : q ≠ p := fun e => hrun (by simp [Place.running, e])
    obtain ⟨h1, h2⟩ := h.saved q hq (by simp [hpl, Place.running, Ne.symm hne])
    refine ⟨?_, ?_⟩
    · show (exceptionEntry L.sym s.m).mem q = _
      rw [hmem, frameStore_out (Layout.apart_proc hproc (h.procs q hq) hne).2]
      exact h1
    · show Holds (exceptionEntry L.sym s.m).mem _ (Function.update s.last p _ q)
      rw [hmem, Function.update_of_ne hne]
      exact h2.congr fun k hk => frameStore_out (Layout.apart_frame hproc (h.procs q hq) hne hk).2
  · refine ⟨hp, hsp', hcur.trans hE, ?_, ?_, ?_⟩
    · show (exceptionEntry L.sym s.m).mem _ = _
      rw [hmem, frameStore_out (Layout.apart_entryTask hproc).2, hE]
    · show Holds (exceptionEntry L.sym s.m).mem _ (Function.update s.last p _ p)
      rw [hmem, Function.update_self]
      exact storeWords_holds
    · have hlo := hidle.lo
      have hhi := hidle.hi
      refine hidle.congr rfl ?_ fun a h1 h2 => ?_
      · show (exceptionEntry L.sym s.m).mem p = _
        rw [hmem, frameStore_out (L.proc_not_frame hproc)]
      · show (exceptionEntry L.sym s.m).mem a = _
        rw [hmem, frameStore_out (Layout.apart_idle hproc (by omega) (by omega)).2]

private theorem Holds.setResult {mem mem' : Nat → Nat} {r : UserRegs} {result : Option Nat}
    (h : Holds mem a r) (hm : ∀ k < 34, mem' (a + 8 * k) =
      if k = 0 then result.getD (mem a) else mem (a + 8 * k)) :
    Holds mem' a (r.setResult result) := by
  intro k hk
  rw [hm k hk]
  have hk' := h k hk
  cases result with
  | none =>
    by_cases h0 : k = 0
    · subst h0
      simpa [UserRegs.setResult] using hk'
    · simpa [UserRegs.setResult, h0] using hk'
  | some v =>
    by_cases h0 : k = 0
    · subst h0
      simp [UserRegs.setResult, UserRegs.word]
    · rw [if_neg h0, hk']
      simp only [UserRegs.word, UserRegs.setResult]
      split
      · rename_i hlt
        have hne : (⟨k, hlt⟩ : Fin 31) ≠ 0 := fun e => h0 (congrArg Fin.val e)
        rw [Function.update_of_ne hne]
      · rfl

private theorem SwitchInv.handler {m' : Machine} {result : Option Nat} (h : SwitchInv L s)
    (hpl : s.place = .handler p) (hsp : m'.sp = s.m.sp) (hcur : m'.sys .spEl0 = s.m.sys .spEl0)
    (htp : m'.sys .tpidr = s.m.sys .tpidr) (hk : KeepsFrames L s (some p) m'.mem)
    (hres : ∀ k < 34, m'.mem (L.frame p + 8 * k) =
      if k = 0 then result.getD (s.m.mem (L.frame p)) else s.m.mem (L.frame p + 8 * k))
    (hidle' : ∀ a, s.call.sp - 96 ≤ a → a < s.call.sp → m'.mem a = s.m.mem a)
    (hE : m'.mem L.entryTask = s.m.mem L.entryTask) :
    SwitchInv L { s with m := m', place := .exiting p,
                         last := Function.update s.last p ((s.last p).setResult result) } := by
  have hplace := h.place
  simp only [PlaceInv, hpl] at hplace
  obtain ⟨hp, hsp₀, hcur₀, hE₀, hregs, hidle⟩ := hplace
  refine ⟨htp.trans h.tpidr, h.procs, ?_, ?_⟩
  · intro q hq hrun
    have hne : q ≠ p := fun e => hrun (by simp [Place.running, e])
    obtain ⟨h1, h2⟩ := h.saved q hq (by simp [hpl, Place.running, Ne.symm hne])
    refine ⟨(hk.1 q hq).trans h1, ?_⟩
    show Holds m'.mem _ (Function.update s.last p _ q)
    rw [Function.update_of_ne hne]
    exact h2.congr (hk.2 q hq (by simp [Ne.symm hne]))
  · refine ⟨hp, hsp.trans hsp₀, hcur.trans hcur₀, hE.trans hE₀, ?_, hidle.congr rfl (hk.1 p hp) hidle'⟩
    show Holds m'.mem _ (Function.update s.last p _ p)
    rw [Function.update_self]
    exact hregs.setResult hres

private theorem SwitchInv.exit (h : SwitchInv L s) (hpl : s.place = .exiting p) :
    userRegs (retToUser s.m) = s.last p ∧
      SwitchInv L { s with m := retToUser s.m, place := .user p } := by
  have hplace := h.place
  simp only [PlaceInv, hpl] at hplace
  obtain ⟨hp, hsp, -, hE, hregs, hidle⟩ := hplace
  obtain ⟨hr, hsp', htp, hmem⟩ := retToUser_eq (m := s.m) (r := s.last p) (by rw [hsp]; exact hregs)
  refine ⟨hr, htp.trans h.tpidr, h.procs, ?_, ?_⟩
  · intro q hq hrun
    obtain ⟨h1, h2⟩ := h.saved q hq (by simpa [hpl, Place.running] using hrun)
    exact ⟨by rw [← h1]; exact congrFun hmem q, by rw [hmem]; exact h2⟩
  · refine ⟨hp, by rw [← hsp]; exact hsp', by rw [← hE]; exact congrFun hmem _, ?_⟩
    exact hidle.congr rfl (congrFun hmem p) fun a _ _ => congrFun hmem a

private theorem SwitchInv.resched (h : SwitchInv L s) (hpl : s.place = .exiting p) :
    idleRegs (processResched L.sym s.m) = s.call ∧
      (processResched L.sym s.m).pc = s.call.x 11 ∧
      SwitchInv L { s with m := processResched L.sym s.m, place := .idle } := by
  have hplace := h.place
  simp only [PlaceInv, hpl] at hplace
  obtain ⟨hp, hsp, hcur, -, hregs, hidle⟩ := hplace
  have hproc := h.procs p hp
  have hlo := hidle.lo
  have hhi := hidle.hi
  obtain ⟨hsp', hx, hpc, -, htp, hmem⟩ := processResched_eq L.sym s.m
  rw [hcur] at hsp' hx hmem
  rw [hidle.sp] at hsp' hx
  rw [hsp] at hmem hx
  have hproc_idle := L.idle_proc p hproc
  have hx' : ∀ j : Fin 12, (processResched L.sym s.m).x (19 + j) = s.call.x j := by
    intro j
    rw [hx j j.isLt, Function.update_of_ne (by omega), hidle.regs j]
  have hsp₁ : (processResched L.sym s.m).sp = s.call.sp := by omega
  refine ⟨IdleRegs.ext (funext hx') hsp₁, hpc.trans (hx' 11), htp.trans h.tpidr, h.procs, ?_, ?_⟩
  · intro q hq _
    by_cases hqp : q = p
    · subst hqp
      refine ⟨?_, ?_⟩
      · show (processResched L.sym s.m).mem q = _
        rw [hmem, Function.update_self]
      · show Holds (processResched L.sym s.m).mem _ _
        rw [hmem]
        refine hregs.congr fun k hk => Function.update_of_ne ?_ _ _
        have := L.proc_not_frame hproc
        rw [ptRegsSize] at this
        omega
    · obtain ⟨h1, h2⟩ := h.saved q hq (by simp [hpl, Place.running, Ne.symm hqp])
      refine ⟨?_, ?_⟩
      · show (processResched L.sym s.m).mem q = _
        rw [hmem, Function.update_of_ne hqp, h1]
      · show Holds (processResched L.sym s.m).mem _ _
        rw [hmem]
        exact h2.congr fun k hk =>
          Function.update_of_ne (Layout.apart_frame hproc (h.procs q hq) hqp hk).1 _ _
  · show L.idleLo + 96 ≤ (processResched L.sym s.m).sp ∧ (processResched L.sym s.m).sp ≤ L.idleHi
    omega

/-! ### Runs -/

theorem SwitchInv.of_initial (h : s.Initial L) : SwitchInv L s where
  tpidr := h.tpidr
  procs := by simp [h.loaded]
  saved := by simp [h.loaded]
  place := by
    simp only [PlaceInv, h.place]
    exact ⟨h.spLo, h.spHi⟩

theorem SwitchInv.step {e : Label} (h : SwitchInv L s) (hs : s.Step L e s') : SwitchInv L s' := by
  cases hs with
  | load hp hnew => exact h.load hp hnew
  | idleRun hpl hlo hhi htp hk =>
    refine ⟨htp.trans h.tpidr, h.procs, fun q hq hrun => ?_, by simp only [PlaceInv, hpl]; exact ⟨hlo, hhi⟩⟩
    obtain ⟨h1, h2⟩ := h.saved q hq hrun
    exact ⟨(hk.1 q hq).trans h1, h2.congr (hk.2 q hq (by simp))⟩
  | dispatch hpl hp hx hE => exact (h.dispatch hpl hp hx hE).2
  | userRun hpl hsp hmem htp =>
    have hplace := h.place
    simp only [PlaceInv, hpl] at hplace
    obtain ⟨hp, hsp₀, hE, hidle⟩ := hplace
    refine ⟨htp.trans h.tpidr, h.procs, fun q hq hrun => ?_, ?_⟩
    · obtain ⟨h1, h2⟩ := h.saved q hq hrun
      exact ⟨by rw [hmem]; exact h1, by rw [hmem]; exact h2⟩
    · simp only [PlaceInv, hpl]
      exact ⟨hp, hsp.trans hsp₀, by rw [hmem]; exact hE,
        hidle.congr rfl (congrFun hmem _) fun a _ _ => congrFun hmem a⟩
  | exception hpl => exact h.exception hpl
  | handler hpl hsp hcur htp hk hres hidle hE => exact h.handler hpl hsp hcur htp hk hres hidle hE
  | exit hpl => exact (h.exit hpl).2
  | resched hpl => exact (h.resched hpl).2.2

theorem SwitchInv.of_reachable (h : (switchSystem L).Reachable s) : SwitchInv L s :=
  h.induction (fun _ => SwitchInv.of_initial) fun _ _ _ _ hI hs => hI.step hs

/-- Context-switch fidelity.  After any run, a step that resumes a process at EL0 gives it the
registers of its last exception, or its initial ones, with the result of an `svc` in `x0`;
`process_resched` returns to the caller of the last `process_cpu_context_switch` (its `x30` is entry
11, counted from `x19`) with its `x19` to `x30` and `sp`; and `proc->sp` is the frame of every
process that is not running and idle's saved stack pointer in the one that is. -/
theorem context_switch_fidelity {e : Label} (h : (switchSystem L).Reachable s) (hs : s.Step L e s') :
    (∀ p, (e = .dispatch p ∨ e = .exit ∧ s.place = .exiting p) →
      s'.place = .user p ∧ userRegs s'.m = s.last p) ∧
    (e = .resched → s'.place = .idle ∧ idleRegs s'.m = s.call ∧ s'.m.pc = s.call.x 11) ∧
    (∀ p ∈ s.loaded, s.place.running ≠ some p →
      s.m.mem p = L.frame p ∧ Holds s.m.mem (L.frame p) (s.last p)) ∧
    (∀ p, s.place.running = some p → s.m.mem p = s.call.sp - 96 ∧
      ∀ j : Fin 12, s.m.mem (s.call.sp - 96 + 8 * j) = s.call.x j) := by
  have hI := SwitchInv.of_reachable h
  refine ⟨?_, ?_, fun p hp hrun => ⟨(hI.saved p hp hrun).sp, (hI.saved p hp hrun).regs⟩, ?_⟩
  · rintro p (rfl | ⟨rfl, hpl⟩)
    · cases hs with
      | dispatch hpl hp hx hE => exact ⟨rfl, (hI.dispatch hpl hp hx hE).1⟩
    · cases hs with
      | exit hpl' =>
        obtain rfl : p = _ := by simpa [hpl] using hpl'
        exact ⟨rfl, (hI.exit hpl).1⟩
  · rintro rfl
    cases hs with
    | resched hpl => exact ⟨rfl, (hI.resched hpl).1, (hI.resched hpl).2.1⟩
  · intro p hrun
    have hplace := hI.place
    unfold PlaceInv at hplace
    have hidle : IdleSaved L s p := by
      split at hplace
      · rename_i hpl
        simp [hpl, Place.running] at hrun
      all_goals
        rename_i hpl
        simp only [hpl, Place.running, Option.some.injEq] at hrun
        subst hrun
      · exact hplace.2.2.2
      · exact hplace.2.2.2.2.2
      · exact hplace.2.2.2.2.2
    exact ⟨hidle.sp, hidle.regs⟩

def sampleLayout : Layout where
  sym := ⟨0x5000, 0x5000, 0x6000, 0x7000⟩
  percpuBase := 0x5000
  procs := fun p => p = 0x1000
  kernelStack := fun _ => 0x10000
  idleLo := 0x20000
  idleHi := 0x24000
  stack_stack := fun p q hp hq hne => absurd (hp.trans hq.symm) hne
  proc_stack := by rintro p q rfl -; decide
  idle_stack := by rintro p rfl; decide
  idle_proc := by rintro p rfl; decide
  entry_stack := by rintro p rfl; decide
  entry_proc := by rintro p rfl; decide
  entry_idle := by decide

def sampleMachine : Machine :=
  ⟨fun i => if i = 0 then 0x1000 else i, 0x23000, fun r => if r = .tpidr then 0x5000 else 0,
    fun a => if a = 0x5000 then 0x1000 else 0, 0, 0⟩

def sampleSys : Sys where
  m := { sampleMachine with
    mem := processCalculateInitRegval sampleLayout 0x1000 0x40000000 0x41c0000000 sampleMachine.mem }
  place := .idle
  loaded := [0x1000]
  last := Function.update (fun _ => initRegs 0 0) 0x1000 (initRegs 0x40000000 0x41c0000000)
  call := ⟨fun _ => 0, 0⟩

theorem sampleSys_reachable : (switchSystem sampleLayout).Reachable sampleSys := by
  have hinit : (switchSystem sampleLayout).Reachable
      ⟨sampleMachine, .idle, [], fun _ => initRegs 0 0, ⟨fun _ => 0, 0⟩⟩ :=
    .of_init ⟨rfl, rfl, rfl, by decide, by decide⟩
  exact hinit.step (show Sys.Step sampleLayout _ (.load 0x1000 0x40000000 0x41c0000000) _ from
    .load rfl (by simp))

theorem sampleSys_dispatch : sampleSys.Step sampleLayout (.dispatch 0x1000)
    { sampleSys with m := processCpuContextSwitch sampleSys.m, place := .user 0x1000,
                     call := idleRegs sampleSys.m } := by
  have hproc : sampleLayout.procs 0x1000 := rfl
  have hmem : sampleSys.m.mem =
      processCalculateInitRegval sampleLayout 0x1000 0x40000000 0x41c0000000 sampleMachine.mem := rfl
  have hE : sampleSys.m.mem sampleLayout.entryTask = 0x1000 := by
    rw [hmem, initRegval_apart (Layout.apart_entryTask hproc)]
    decide
  exact .dispatch rfl (List.mem_singleton.mpr rfl) rfl hE

theorem context_switch_fidelity_first :
    userRegs (processCpuContextSwitch sampleSys.m) = initRegs 0x40000000 0x41c0000000 :=
  ((context_switch_fidelity sampleSys_reachable sampleSys_dispatch).1 0x1000 (.inl rfl)).2

end QuestOS.Context
