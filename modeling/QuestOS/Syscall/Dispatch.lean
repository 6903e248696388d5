import QuestOS.Lib.A64
import QuestOS.Sched.Model
import QuestOS.Syscall.Write

/-!
# System call dispatch

`el0t_64_handle_svc` of `syscall.c` with the two system calls of the table.  The number in `x8` indexes the table as it
is: a number below `__NR_syscalls` is handled as it should be, and every other one reads behind the table
(`handleSvc_iff`).  On the process and the per-CPU variables the call is the one of the scheduler model
(`handleSvc_cpu`).
-/

namespace QuestOS.Svc

open Bytes

structure PtRegs where
  regs : Fin 31 → BitVec 64
  sp : BitVec 64
  pc : BitVec 64
  pstate : BitVec 64

def ptRegsBytes : Nat := 34 * 8

/-- The kernel stack: the saved frame, and below it the frames of the functions called, with the buffer of the write
system call and at least the byte behind it. -/
structure Stack extends WriteEnv where
  frame : Nat
  below : buffer.toNat + 128 < frame

def nrSyscalls : Nat := 470

def sysCallTable (nr : Fin nrSyscalls) : Syscall :=
  if nr.val = 64 then .write else if nr.val = 93 then .exit else .ni

structure Call where
  ret : BitVec 64
  cpu : Cpu
  stores : List Nat
  text : List UInt8

def exitFormat : Text where
  bytes := "process:".toList.map ch ++ ch '%' :: ch 's' :: (" exited(".toList.map ch ++
    ch '%' :: ch 'd' :: ").\n".toList.map ch)
  nul_free := by decide

variable (env : Stack) (s : UserSpace) (mem : Mem)

def sysWrite (regs : PtRegs) (c : Cpu) : Option Call := do
  let r ← ksysWrite env.toWriteEnv s mem ((regs.regs 0).truncate 32) (regs.regs 1) (regs.regs 2)
  some { ret := BitVec.ofInt 64 r.ret, cpu := c, stores := r.stores, text := r.text }

def sysExit (regs : PtRegs) (c : Cpu) : Option Call := do
  let errorCode : BitVec 32 := (regs.regs 0).truncate 32
  let code : BitVec 64 := ((errorCode &&& 0xff) <<< 8).signExtend 64
  let p ← myprintf exitFormat [env.nameArg, { word := code, text := ⟨[], nul_free_nil⟩ }]
  some { ret := 0, cpu := doExit c, stores := [], text := p.out }

def sysNiSyscall (c : Cpu) : Option Call := some { ret := -38, cpu := c, stores := [], text := [] }

def call (regs : PtRegs) (c : Cpu) : Syscall → Option Call
  | .write => sysWrite env s mem regs c
  | .exit => sysExit env regs c
  | .ni => sysNiSyscall c

structure Handled where
  regs : PtRegs
  cpu : Cpu
  stores : List Nat
  text : List UInt8

def el0t64HandleSvc (regs : PtRegs) (c : Cpu) : Option Handled :=
  let nr := (regs.regs 8).toNat
  if h : nr < nrSyscalls then do
    let r ← call env s mem regs c (sysCallTable ⟨nr, h⟩)
    let cpu := if (r.cpu.procs r.cpu.current).state ≠ .running then setResched true r.cpu else r.cpu
    some { regs := { regs with regs := Function.update regs.regs 0 r.ret }, cpu, stores := r.stores, text := r.text }
  else none

def Implemented (nr : BitVec 64) : Prop := nr = 64 ∨ nr = 93

structure Spec (regs : PtRegs) (c : Cpu) (r : Handled) : Prop where
  ni_ret : ¬ Implemented (regs.regs 8) → r.regs.regs 0 = -38
  ni_effect : ¬ Implemented (regs.regs 8) →
    r.stores = [] ∧ r.text = [] ∧ r.cpu = { c with needReschedFlag := r.cpu.needReschedFlag }
  frame : ∀ i, i ≠ 0 → r.regs.regs i = regs.regs i
  frame_rest : r.regs.sp = regs.sp ∧ r.regs.pc = regs.pc ∧ r.regs.pstate = regs.pstate
  stores : ∀ x ∈ r.stores, ¬ (env.frame ≤ x ∧ x < env.frame + ptRegsBytes)
  resched : r.cpu.needReschedFlag =
    if (r.cpu.procs r.cpu.current).state ≠ .running then 1 else c.needReschedFlag

variable {env s mem} {regs : PtRegs} {c : Cpu}

/-! ### The calls -/

theorem exitFormat_bytes : exitFormat.bytes = "process:".toList.map ch ++ ch '%' :: ch 's' :: (" exited(".toList.map ch ++
    ch '%' :: ch 'd' :: ").\n".toList.map ch) := rfl

theorem exists_exitText (env : WriteEnv) (a : Arg) : ∃ p, myprintf exitFormat [env.nameArg, a] = some p := by
  obtain ⟨text, hint⟩ := exists_integerText a
  rw [myprintf, exitFormat_bytes, myprintfLoop_append (by decide), myprintfLoop_string rfl (length_nameArg env),
    myprintfLoop_append (by decide), myprintfLoop_decimal rfl hint]
  exact ⟨_, myprintfLoop_literal (by decide) _⟩

/-- A call returns, leaves the saved frame alone, and acts on the process as in the scheduler model. -/
theorem call_returns (env : Stack) (s : UserSpace) (mem : Mem) (regs : PtRegs) (c : Cpu) (nr : Syscall) :
    ∃ r, call env s mem regs c nr = some r ∧ r.cpu = nr.run c ∧
      ∀ x ∈ r.stores, ¬ (env.frame ≤ x ∧ x < env.frame + ptRegsBytes) := by
  cases nr with
  | write =>
    obtain ⟨r, hr, hstores⟩ := ksysWrite_returns env.toWriteEnv s mem ((regs.regs 0).truncate 32) (regs.regs 1) (regs.regs 2)
    refine ⟨{ ret := BitVec.ofInt 64 r.ret, cpu := c, stores := r.stores, text := r.text }, ?_, rfl, fun x hx => ?_⟩
    · rw [call, sysWrite, hr]
      rfl
    · have h1 := hstores x hx
      have h2 := env.below
      omega
  | exit =>
    obtain ⟨p, hp⟩ := exists_exitText env.toWriteEnv
      { word := ((((regs.regs 0).truncate 32 : BitVec 32) &&& 0xff) <<< 8).signExtend 64, text := ⟨[], nul_free_nil⟩ }
    refine ⟨{ ret := 0, cpu := doExit c, stores := [], text := p.out }, ?_, rfl, fun x hx => by cases hx⟩
    rw [call, sysExit, hp]
    rfl
  | ni => exact ⟨_, rfl, rfl, fun x hx => by cases hx⟩

theorem sysCallTable_of_not (nr : BitVec 64) (h : nr.toNat < nrSyscalls) (hni : ¬ Implemented nr) :
    sysCallTable ⟨nr.toNat, h⟩ = .ni := by
  have h64 : nr.toNat ≠ 64 := fun he => hni (.inl (BitVec.eq_of_toNat_eq he))
  have h93 : nr.toNat ≠ 93 := fun he => hni (.inr (BitVec.eq_of_toNat_eq he))
  rw [sysCallTable, if_neg h64, if_neg h93]

/-! ### The dispatch -/

theorem handleSvc_eq (h : (regs.regs 8).toNat < nrSyscalls) {r : Call}
    (hr : call env s mem regs c (sysCallTable ⟨(regs.regs 8).toNat, h⟩) = some r) :
    el0t64HandleSvc env s mem regs c = some
      { regs := { regs with regs := Function.update regs.regs 0 r.ret }
        cpu := if (r.cpu.procs r.cpu.current).state ≠ .running then setResched true r.cpu else r.cpu
        stores := r.stores
        text := r.text } := by
  rw [el0t64HandleSvc]
  dsimp only
  rw [dif_pos h, hr]
  rfl

/-- On the CPU the dispatch does what the scheduler model says of the system call in the table. -/
theorem handleSvc_cpu (env : Stack) (s : UserSpace) (mem : Mem) (c : Cpu) (h : (regs.regs 8).toNat < nrSyscalls) :
    (el0t64HandleSvc env s mem regs c).map Handled.cpu =
      some (QuestOS.el0t64HandleSvc (sysCallTable ⟨(regs.regs 8).toNat, h⟩) c) := by
  obtain ⟨r, hr, hcpu, -⟩ := call_returns env s mem regs c (sysCallTable ⟨(regs.regs 8).toNat, h⟩)
  rw [handleSvc_eq h hr, Option.map_some, hcpu]
  rfl

theorem handleSvc_spec (env : Stack) (s : UserSpace) (mem : Mem) (c : Cpu) (h : (regs.regs 8).toNat < nrSyscalls) :
    ∃ r, el0t64HandleSvc env s mem regs c = some r ∧ Spec env regs c r := by
  obtain ⟨r, hr, hcpu, hstores⟩ := call_returns env s mem regs c (sysCallTable ⟨(regs.regs 8).toNat, h⟩)
  refine ⟨_, handleSvc_eq h hr, ?_⟩
  have hni : ¬ Implemented (regs.regs 8) → r = { ret := -38, cpu := c, stores := [], text := [] } := by
    intro hni
    rw [sysCallTable_of_not _ h hni] at hr
    exact (Option.some.inj hr).symm
  constructor
  · intro h'
    rw [hni h']
    exact Function.update_self (0 : Fin 31) (-38 : BitVec 64) regs.regs
  · intro h'
    rw [hni h']
    refine ⟨rfl, rfl, ?_⟩
    dsimp only
    split <;> rfl
  · intro i hi
    exact Function.update_of_ne hi _ _
  · exact ⟨rfl, rfl, rfl⟩
  · exact hstores
  · have hflag : r.cpu.needReschedFlag = c.needReschedFlag := by
      rw [hcpu]
      cases sysCallTable ⟨(regs.regs 8).toNat, h⟩ <;> rfl
    dsimp only
    by_cases hstate : (r.cpu.procs r.cpu.current).state ≠ .running
    · rw [if_pos hstate]
      exact (if_pos hstate).symm
    · rw [if_neg hstate, if_neg hstate, hflag]

/-- For every saved frame: the dispatch does what it is for if and only if the number is in the table. -/
theorem handleSvc_iff (env : Stack) (s : UserSpace) (mem : Mem) (regs : PtRegs) (c : Cpu) :
    (∃ r, el0t64HandleSvc env s mem regs c = some r ∧ Spec env regs c r) ↔ (regs.regs 8).toNat < nrSyscalls := by
  constructor
  · rintro ⟨r, hr, -⟩
    by_contra h
    rw [el0t64HandleSvc] at hr
    dsimp only at hr
    rw [dif_neg h] at hr
    cases hr
  · exact handleSvc_spec env s mem c

def pastTable : PtRegs where
  regs := fun i => if i = 8 then 470 else 0
  sp := 0
  pc := 0
  pstate := 0

def svcStack : Stack := { writeEnv with frame := 0x20000, below := by decide }

def svcCpu : Cpu where
  procs := fun _ => { name := [], state := .running, kthread := none, lastWake := none, lastRunTimestamp := 0 }
  processes := [1]
  nextProcess := 0
  entryTask := some 1
  needReschedFlag := 0
  preemptCount := 0
  current := 1
  phase := .user 1

/-- The first number behind the table is used as an index all the same. -/
theorem pastTable_not_handled :
    ¬ ∃ r, el0t64HandleSvc svcStack letterSpace (fun _ => 0) pastTable svcCpu = some r ∧ Spec svcStack pastTable svcCpu r := by
  rintro ⟨r, hr, -⟩
  rw [el0t64HandleSvc] at hr
  dsimp only at hr
  rw [dif_neg (by decide)] at hr
  cases hr

theorem handleSvc_cpu_exit : (el0t64HandleSvc svcStack letterSpace (fun _ => 0)
    { pastTable with regs := fun i => if i = 8 then 93 else 0 } svcCpu).map Handled.cpu =
      some (QuestOS.el0t64HandleSvc .exit svcCpu) := handleSvc_cpu svcStack letterSpace _ svcCpu (by decide)

end QuestOS.Svc
