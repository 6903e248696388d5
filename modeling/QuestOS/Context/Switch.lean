import Mathlib.Tactic.FinCases
import QuestOS.Lib.A64

/-!
# The context-switch assembly

`process_cpu_context_switch` and the exception entry and exit code, line by line, and one lemma per
routine that says what it does to the machine.  A register save area of an exception is a
`struct user_pt_regs`: `x0` to `x30`, `sp`, `pc` and `pstate`, 34 words.
-/

namespace QuestOS.Context

open A64

def ptRegsSize : Nat := 272

/-- `offsetof(struct pt_regs, regs[30])` and `offsetof(struct pt_regs, pc)`. -/
def sLr : Nat := 240
def sPc : Nat := 256

/-! ### The code -/

structure Symbols where
  entryTask : Nat
  percpuStart : Nat
  reservedPgDir : Nat
  gKernelInitProcess : Nat

def kernelEntry (sym : Symbols) : List Instr :=
  [.subSp ptRegsSize,
   .stp 0 1 (16 * 0), .stp 2 3 (16 * 1), .stp 4 5 (16 * 2), .stp 6 7 (16 * 3), .stp 8 9 (16 * 4),
   .stp 10 11 (16 * 5), .stp 12 13 (16 * 6), .stp 14 15 (16 * 7), .stp 16 17 (16 * 8),
   .stp 18 19 (16 * 9), .stp 20 21 (16 * 10), .stp 22 23 (16 * 11), .stp 24 25 (16 * 12),
   .stp 26 27 (16 * 13), .stp 28 29 (16 * 14),
   .mrs 21 .spEl0,
   .imm 0 sym.entryTask, .imm 1 sym.percpuStart, .sub 0 0 1, .mrs 1 .tpidr, .add 0 0 1,
   .ldr 1 0, .msr .spEl0 1,
   .mrs 22 .elr, .mrs 23 .spsr,
   .stp 30 21 sLr, .stp 22 23 sPc]

def kernelExit : List Instr :=
  [.ldrSp 21 (sLr + 8), .msr .spEl0 21,
   .ldp 22 23 sPc, .msr .elr 22, .msr .spsr 23,
   .ldp 0 1 (16 * 0), .ldp 2 3 (16 * 1), .ldp 4 5 (16 * 2), .ldp 6 7 (16 * 3), .ldp 8 9 (16 * 4),
   .ldp 10 11 (16 * 5), .ldp 12 13 (16 * 6), .ldp 14 15 (16 * 7), .ldp 16 17 (16 * 8),
   .ldp 18 19 (16 * 9), .ldp 20 21 (16 * 10), .ldp 22 23 (16 * 11), .ldp 24 25 (16 * 12),
   .ldp 26 27 (16 * 13), .ldp 28 29 (16 * 14),
   .ldrSp 30 sLr, .addSp ptRegsSize]

def contextSwitchSave : List Instr :=
  [.stpPre 29 30 16, .stpPre 27 28 16, .stpPre 25 26 16, .stpPre 23 24 16, .stpPre 21 22 16,
   .stpPre 19 20 16,
   .movFromSp 2, .ldr 3 0, .movToSp 3, .str 2 0,
   .ldp 4 5 (16 * 2), .ldp 6 7 (16 * 3), .ldp 8 9 (16 * 4), .ldp 10 11 (16 * 5),
   .ldp 12 13 (16 * 6), .ldp 14 15 (16 * 7), .ldp 16 17 (16 * 8), .ldp 18 19 (16 * 9),
   .ldp 20 21 (16 * 10), .ldp 22 23 (16 * 11), .ldp 24 25 (16 * 12), .ldp 26 27 (16 * 13),
   .ldp 28 29 (16 * 14)]

def contextSwitchTtbr0 : List Instr :=
  [.barrier, .msr .ttbr0 1, .barrier, .barrier, .barrier, .barrier]

def contextSwitchRestore : List Instr :=
  [.ldp 2 3 (16 * 15), .mov 30 2, .msr .spEl0 3,
   .ldp 0 1 (16 * 16), .msr .elr 0, .msr .spsr 1,
   .ldp 0 1 (16 * 0), .ldp 2 3 (16 * 1), .addSp ptRegsSize]

def processReschedCode (sym : Symbols) : List Instr :=
  [.movFromSp 21, .mrs 22 .spEl0, .ldr 23 22, .movToSp 23, .str 21 22,
   .imm 21 sym.reservedPgDir, .msr .ttbr0 21,
   .imm 21 sym.gKernelInitProcess, .msr .spEl0 21,
   .ldpPost 19 20 16, .ldpPost 21 22 16, .ldpPost 23 24 16, .ldpPost 25 26 16, .ldpPost 27 28 16,
   .ldpPost 29 30 16]

def exceptionEntry (sym : Symbols) (m : Machine) : Machine :=
  exec (kernelEntry sym) ((m.setSys .elr m.pc).setSys .spsr m.pstate)

def retToUser (m : Machine) : Machine := (exec kernelExit m).eret

def processCpuContextSwitch (m : Machine) : Machine :=
  let m := exec contextSwitchSave m
  let m := if m.x 1 = 0 then m else exec contextSwitchTtbr0 m
  (exec contextSwitchRestore m).eret

def processResched (sym : Symbols) (m : Machine) : Machine := (exec (processReschedCode sym) m).ret

/-! ### What a process and idle see of the machine -/

@[ext] structure UserRegs where
  x : Fin 31 → Nat
  sp : Nat
  pc : Nat
  pstate : Nat

def UserRegs.word (r : UserRegs) (k : Nat) : Nat :=
  if h : k < 31 then r.x ⟨k, h⟩ else if k = 31 then r.sp else if k = 32 then r.pc else r.pstate

def userRegs (m : Machine) : UserRegs := ⟨fun i => m.x i, m.sys .spEl0, m.pc, m.pstate⟩

def Holds (mem : Nat → Nat) (a : Nat) (r : UserRegs) : Prop := ∀ k < 34, mem (a + 8 * k) = r.word k

def entryTaskPtr (sym : Symbols) (m : Machine) : Nat :=
  sym.entryTask - sym.percpuStart + m.sys .tpidr

variable {r : UserRegs}

theorem storeWords_holds {mem : Nat → Nat} {a : Nat} :
    Holds (storeWords mem a 34 r.word) a r := fun _ hk => storeWords_at hk

theorem Holds.eq {mem : Nat → Nat} {a : Nat} (h : Holds mem a r) :
    r = ⟨fun i => mem (a + 8 * i), mem (a + 248), mem (a + 256), mem (a + 264)⟩ := by
  have hsp := h 31 (by omega)
  have hpc := h 32 (by omega)
  have hps := h 33 (by omega)
  simp only [UserRegs.word] at hsp hpc hps
  ext i
  · show r.x i = mem (a + 8 * i)
    rw [h i (by omega)]
    simp [UserRegs.word]
  · simp [hsp]
  · simp [hpc]
  · simp [hps]

/-! ### One lemma per routine -/

private theorem storeWords_frame (mem x : Nat → Nat) (b sp pc pstate : Nat) :
    Function.update (Function.update (Function.update (Function.update (storeWords mem b 30 x)
      (b + 240) (x 30)) (b + 240 + 8) sp) (b + 256) pc) (b + 256 + 8) pstate =
    storeWords mem b 34 (UserRegs.word ⟨fun i => x i, sp, pc, pstate⟩) := by
  rw [storeWords_succ _ _ _ 33, storeWords_succ _ _ _ 32, storeWords_succ _ _ _ 31,
    storeWords_succ _ _ _ 30]
  have hregs : storeWords mem b 30 x =
      storeWords mem b 30 (UserRegs.word ⟨fun i => x i, sp, pc, pstate⟩) := by
    refine storeWords_congr fun i hi => ?_
    have : i < 31 := by omega
    simp [UserRegs.word, this]
  rw [hregs]
  rfl

variable {m : Machine}

/-- `kernel_entry 0` stores the interrupted registers in the frame below `sp` and makes the entry
task `current`. -/
theorem exceptionEntry_eq (sym : Symbols) (hsp : ptRegsSize ≤ m.sp)
    (hE : entryTaskPtr sym m < m.sp - ptRegsSize ∨ m.sp ≤ entryTaskPtr sym m) :
    let m' := exceptionEntry sym m
    m'.sp = m.sp - ptRegsSize ∧ m'.sys .spEl0 = m.mem (entryTaskPtr sym m) ∧
      m'.sys .tpidr = m.sys .tpidr ∧
      m'.mem = storeWords m.mem (m.sp - ptRegsSize) 34 (userRegs m).word := by
  have hcode : kernelEntry sym = [.subSp ptRegsSize] ++ stpBlock 15 ++
      [.mrs 21 .spEl0, .imm 0 sym.entryTask, .imm 1 sym.percpuStart, .sub 0 0 1, .mrs 1 .tpidr,
       .add 0 0 1, .ldr 1 0, .msr .spEl0 1, .mrs 22 .elr, .mrs 23 .spsr, .stp 30 21 sLr,
       .stp 22 23 sPc] := rfl
  unfold exceptionEntry
  rw [hcode, exec_append, exec_append, exec_stpBlock]
  simp only [exec, Instr.exec, Machine.setX, Machine.setSys, Machine.storePair, Machine.store, sLr, sPc]
  generalize hb : m.sp - ptRegsSize = b at hE ⊢
  refine ⟨trivial, ?_, ?_, ?_⟩
  · simp [Function.update]
    exact storeWords_out (by simp only [ptRegsSize, entryTaskPtr] at *; omega)
  · simp [Function.update]
  · simp only [Function.update, reduceCtorEq, eq_rec_constant, dite_eq_ite, if_true, if_false]
    exact storeWords_frame m.mem m.x b (m.sys .spEl0) m.pc m.pstate

theorem retToUser_eq (h : Holds m.mem m.sp r) :
    let m' := retToUser m
    userRegs m' = r ∧ m'.sp = m.sp + ptRegsSize ∧ m'.sys .tpidr = m.sys .tpidr ∧ m'.mem = m.mem := by
  have hcode : kernelExit = [.ldrSp 21 (sLr + 8), .msr .spEl0 21, .ldp 22 23 sPc, .msr .elr 22,
      .msr .spsr 23] ++ ldpBlock 0 15 ++ [.ldrSp 30 sLr, .addSp ptRegsSize] := rfl
  unfold retToUser
  rw [hcode, exec_append, exec_append, exec_ldpBlock, h.eq]
  simp only [exec, Instr.exec, Machine.setX, Machine.setSys, Machine.loadPair, Machine.eret, sLr, sPc]
  refine ⟨?_, trivial, by simp [Function.update], trivial⟩
  ext i
  · simp only [userRegs]
    by_cases hi : i.val = 30
    · rw [hi, Function.update_self]
    · rw [Function.update_of_ne hi, if_pos (by omega)]
  · simp [userRegs, Function.update]
  · simp [userRegs, Function.update]
  · simp [userRegs, Function.update]

/-- The memory `process_cpu_context_switch` leaves behind: idle's `x19` to `x30` below its stack
pointer, and that stack pointer in place of the frame's address. -/
def switchMem (m : Machine) : Nat → Nat :=
  Function.update (storeWords m.mem (m.sp - 96) 12 fun j => m.x (19 + j)) (m.x 0) (m.sp - 96)

/-- The machine at `cbz x1, 1f`: on the process's kernel stack, `x0` and `x1` still the arguments. -/
private theorem contextSwitchSave_eq (hsp : 96 ≤ m.sp)
    (hp : m.x 0 < m.sp - 96 ∨ m.sp ≤ m.x 0) :
    exec contextSwitchSave m =
      { m with sp := m.mem (m.x 0), mem := switchMem m,
               x := fun i => if 4 ≤ i ∧ i < 30 then switchMem m (m.mem (m.x 0) + 8 * i) else
                 Function.update (Function.update m.x 2 (m.sp - 96)) 3 (m.mem (m.x 0)) i } := by
  have hcode : contextSwitchSave = pushBlock 19 6 ++
      [.movFromSp 2, .ldr 3 0, .movToSp 3, .str 2 0] ++ ldpBlock 2 13 := rfl
  have hkept : storeWords m.mem (m.sp - 96) 12 (fun j => m.x (19 + j)) (m.x 0) = m.mem (m.x 0) :=
    storeWords_out (by omega)
  rw [hcode, exec_append, exec_append, exec_pushBlock (by omega), exec_ldpBlock]
  simp only [exec, Instr.exec, Machine.setX, Machine.store, Function.update_self,
    Function.update_of_ne (show (0 : Nat) ≠ 2 by decide),
    Function.update_of_ne (show (0 : Nat) ≠ 3 by decide),
    Function.update_of_ne (show (2 : Nat) ≠ 3 by decide)]
  rw [show m.sp - 16 * 6 = m.sp - 96 by omega, show 2 * 6 = 12 by rfl, hkept]
  rfl

/-- From the label `1:` on, with `x4` to `x29` already loaded from the frame at `sp`. -/
private theorem contextSwitchRestore_eq (h : Holds m.mem m.sp r)
    (hx : ∀ i, 4 ≤ i → i < 30 → m.x i = m.mem (m.sp + 8 * i)) :
    let m' := (exec contextSwitchRestore m).eret
    userRegs m' = r ∧ m'.sp = m.sp + ptRegsSize ∧ m'.sys .tpidr = m.sys .tpidr ∧ m'.mem = m.mem := by
  rw [h.eq]
  simp only [contextSwitchRestore, exec, Instr.exec, Machine.setX, Machine.setSys, Machine.loadPair,
    Machine.eret]
  refine ⟨?_, trivial, by simp [Function.update], trivial⟩
  ext i
  · simp only [userRegs]
    by_cases hi : 4 ≤ i.val ∧ i.val < 30
    · have hne : ∀ j : Nat, j < 4 ∨ j = 30 → i.val ≠ j := by omega
      simp only [Function.update_of_ne (hne 0 (by omega)), Function.update_of_ne (hne 1 (by omega)),
        Function.update_of_ne (hne 2 (by omega)), Function.update_of_ne (hne 3 (by omega)),
        Function.update_of_ne (hne 30 (by omega))]
      exact hx i hi.1 hi.2
    · have hcases : i.val = 0 ∨ i.val = 1 ∨ i.val = 2 ∨ i.val = 3 ∨ i.val = 30 := by omega
      rcases hcases with h | h | h | h | h <;> simp [h, Function.update]
  · simp [userRegs, Function.update]
  · simp [userRegs, Function.update]
  · simp [userRegs, Function.update]

/-- `process_cpu_context_switch` resumes with the registers of the frame whose address is in
`*x0`. -/
theorem processCpuContextSwitch_eq (hsp : 96 ≤ m.sp)
    (hp : m.x 0 < m.sp - 96 ∨ m.sp ≤ m.x 0) (h : Holds (switchMem m) (m.mem (m.x 0)) r) :
    let m' := processCpuContextSwitch m
    userRegs m' = r ∧ m'.sp = m.mem (m.x 0) + ptRegsSize ∧ m'.sys .tpidr = m.sys .tpidr ∧
      m'.mem = switchMem m := by
  have hsave := contextSwitchSave_eq hsp hp
  unfold processCpuContextSwitch
  generalize exec contextSwitchSave m = m₁ at hsave
  -- the ttbr0 switch, taken or not, changes nothing the rest of the routine reads
  obtain ⟨m₂, hm₂⟩ : ∃ m₂, m₂ = if m₁.x 1 = 0 then m₁ else exec contextSwitchTtbr0 m₁ := ⟨_, rfl⟩
  have hkeep : m₂.sp = m₁.sp ∧ m₂.mem = m₁.mem ∧ m₂.x = m₁.x ∧ m₂.sys .tpidr = m₁.sys .tpidr := by
    rw [hm₂]
    split
    · exact ⟨rfl, rfl, rfl, rfl⟩
    · have htp : SysReg.tpidr ≠ .ttbr0 := by decide
      exact ⟨rfl, rfl, rfl, Function.update_of_ne htp (m₁.x 1) m₁.sys⟩
  obtain ⟨hsp₂, hmem₂, hx₂, htp₂⟩ := hkeep
  rw [hsave] at hsp₂ hmem₂ hx₂ htp₂
  dsimp only at hsp₂ hmem₂ hx₂ htp₂ ⊢
  have h₂ := contextSwitchRestore_eq (m := m₂) (r := r) (by rw [hmem₂, hsp₂]; exact h)
    (fun i h4 h30 => by rw [hx₂, hmem₂, hsp₂]; exact if_pos ⟨h4, h30⟩)
  rw [hsp₂, htp₂, hmem₂] at h₂
  rw [← hm₂]
  exact h₂

/-- `process_resched` saves the frame's address in `current->sp` and continues on the stack that was
there, with the callee-saved registers stored on it. -/
theorem processResched_eq (sym : Symbols) (m : Machine) :
    let mem := Function.update m.mem (m.sys .spEl0) m.sp
    let m' := processResched sym m
    m'.sp = m.mem (m.sys .spEl0) + 96 ∧
      (∀ j < 12, m'.x (19 + j) = mem (m.mem (m.sys .spEl0) + 8 * j)) ∧
      m'.pc = m'.x 30 ∧ m'.sys .spEl0 = sym.gKernelInitProcess ∧
      m'.sys .tpidr = m.sys .tpidr ∧ m'.mem = mem := by
  have hcode : processReschedCode sym = [.movFromSp 21, .mrs 22 .spEl0, .ldr 23 22, .movToSp 23,
      .str 21 22, .imm 21 sym.reservedPgDir, .msr .ttbr0 21, .imm 21 sym.gKernelInitProcess,
      .msr .spEl0 21] ++ popBlock 19 6 := rfl
  unfold processResched
  rw [hcode, exec_append, exec_popBlock]
  simp only [exec, Instr.exec, Machine.setX, Machine.setSys, Machine.store, Machine.ret]
  refine ⟨by simp [Function.update], fun j hj => ?_, trivial, by simp [Function.update],
    by simp [Function.update], by simp [Function.update]⟩
  rw [if_pos (by omega), Nat.add_sub_cancel_left]
  simp

end QuestOS.Context
