import Mathlib.Algebra.Ring.Nat
import Mathlib.Logic.Function.Basic

/-!
# Straight-line AArch64 code

The instructions that register save and restore sequences are made of, over a machine with 31
general registers, the EL1 stack pointer, a few system registers and a memory of 64-bit words.
Besides `exec` there are four block lemmas: a run of `stp`s or `ldp`s at consecutive offsets from
`sp` stores or loads consecutive registers, and a run of pre-indexed pushes or post-indexed pops
does the same while it moves `sp`.

Registers hold natural numbers and the memory is indexed by the byte address of the word, so that
two accesses meet only when they have the same address: all accesses of such code are 8-byte
aligned.
-/

namespace A64

inductive SysReg
  | spEl0 | elr | spsr | ttbr0 | tpidr
  deriving DecidableEq, Repr

/-- A machine: `pc` and `pstate` are those of the exception level that executes. -/
structure Machine where
  x : Nat → Nat
  sp : Nat
  sys : SysReg → Nat
  mem : Nat → Nat
  pc : Nat
  pstate : Nat

instance neZero_regs : NeZero 31 := ⟨by decide⟩

/-- Instructions; register operands are numbers below 31 and `imm` is a value known at link time. -/
inductive Instr
  | stpPre (a b size : Nat)
  | ldpPost (a b size : Nat)
  | stp (a b off : Nat)
  | ldp (a b off : Nat)
  | ldrSp (a off : Nat)
  | ldr (a b : Nat)
  | str (a b : Nat)
  | movFromSp (a : Nat)
  | movToSp (a : Nat)
  | mov (a b : Nat)
  | imm (a v : Nat)
  | add (a b c : Nat)
  | sub (a b c : Nat)
  | mrs (a : Nat) (r : SysReg)
  | msr (r : SysReg) (a : Nat)
  | addSp (n : Nat)
  | subSp (n : Nat)
  | barrier
  deriving DecidableEq, Repr

open Function (update)

variable {m : Machine}

namespace Machine

def setX (m : Machine) (a v : Nat) : Machine := { m with x := update m.x a v }

def setSys (m : Machine) (r : SysReg) (v : Nat) : Machine := { m with sys := update m.sys r v }

def store (m : Machine) (a v : Nat) : Machine := { m with mem := update m.mem a v }

def storePair (m : Machine) (addr a b : Nat) : Machine :=
  (m.store addr (m.x a)).store (addr + 8) (m.x b)

def loadPair (m : Machine) (addr a b : Nat) : Machine :=
  (m.setX a (m.mem addr)).setX b (m.mem (addr + 8))

def eret (m : Machine) : Machine := { m with pc := m.sys .elr, pstate := m.sys .spsr }

def ret (m : Machine) : Machine := { m with pc := m.x 30 }

end Machine

def Instr.exec : Instr → Machine → Machine
  | .stpPre a b size, m => { m.storePair (m.sp - size) a b with sp := m.sp - size }
  | .ldpPost a b size, m => { m.loadPair m.sp a b with sp := m.sp + size }
  | .stp a b off, m => m.storePair (m.sp + off) a b
  | .ldp a b off, m => m.loadPair (m.sp + off) a b
  | .ldrSp a off, m => m.setX a (m.mem (m.sp + off))
  | .ldr a b, m => m.setX a (m.mem (m.x b))
  | .str a b, m => m.store (m.x b) (m.x a)
  | .movFromSp a, m => m.setX a m.sp
  | .movToSp a, m => { m with sp := m.x a }
  | .mov a b, m => m.setX a (m.x b)
  | .imm a v, m => m.setX a v
  | .add a b c, m => m.setX a (m.x b + m.x c)
  | .sub a b c, m => m.setX a (m.x b - m.x c)
  | .mrs a r, m => m.setX a (m.sys r)
  | .msr r a, m => m.setSys r (m.x a)
  | .addSp n, m => { m with sp := m.sp + n }
  | .subSp n, m => { m with sp := m.sp - n }
  | .barrier, m => m

def exec : List Instr → Machine → Machine
  | [], m => m
  | i :: is, m => exec is (i.exec m)

theorem exec_append (is js : List Instr) (m : Machine) : exec (is ++ js) m = exec js (exec is m) := by
  induction is generalizing m with
  | nil => rfl
  | cons i is ih => exact ih (i.exec m)

/-! ### Blocks of stores and loads -/

def storeWords (mem : Nat → Nat) (base n : Nat) (f : Nat → Nat) (a : Nat) : Nat :=
  if base ≤ a ∧ a < base + 8 * n ∧ (a - base) % 8 = 0 then f ((a - base) / 8) else mem a

theorem storeWords_at {mem f : Nat → Nat} {base n i : Nat} (hi : i < n) :
    storeWords mem base n f (base + 8 * i) = f i := by
  have h1 : base + 8 * i - base = 8 * i := by omega
  have h2 : base ≤ base + 8 * i ∧ base + 8 * i < base + 8 * n ∧ 8 * i % 8 = 0 := by omega
  rw [storeWords, h1, if_pos h2]
  congr 1
  omega

theorem storeWords_out {mem f : Nat → Nat} {base n a : Nat} (h : a < base ∨ base + 8 * n ≤ a) :
    storeWords mem base n f a = mem a := by
  rw [storeWords, if_neg]
  omega

theorem storeWords_succ (mem f : Nat → Nat) (base n : Nat) :
    storeWords mem base (n + 1) f = update (storeWords mem base n f) (base + 8 * n) (f n) := by
  funext a
  by_cases h : a = base + 8 * n
  · rw [h, storeWords_at (by omega), Function.update_self]
  · rw [Function.update_of_ne h]
    unfold storeWords
    have hiff : (base ≤ a ∧ a < base + 8 * (n + 1) ∧ (a - base) % 8 = 0) ↔
        (base ≤ a ∧ a < base + 8 * n ∧ (a - base) % 8 = 0) := by omega
    simp only [hiff]

theorem storeWords_congr {mem f g : Nat → Nat} {base n : Nat} (h : ∀ i < n, f i = g i) :
    storeWords mem base n f = storeWords mem base n g := by
  funext a
  unfold storeWords
  split
  · exact h _ (by omega)
  · rfl

def stpBlock (n : Nat) : List Instr := (List.range n).map fun k => .stp (2 * k) (2 * k + 1) (16 * k)

def ldpBlock (lo n : Nat) : List Instr :=
  (List.range' lo n).map fun k => .ldp (2 * k) (2 * k + 1) (16 * k)

def pushBlock (lo : Nat) : Nat → List Instr
  | 0 => []
  | n + 1 => .stpPre (lo + 2 * n) (lo + 2 * n + 1) 16 :: pushBlock lo n

def popBlock (lo : Nat) : Nat → List Instr
  | 0 => []
  | n + 1 => .ldpPost lo (lo + 1) 16 :: popBlock (lo + 2) n

theorem exec_stpBlock (n : Nat) (m : Machine) :
    exec (stpBlock n) m = { m with mem := storeWords m.mem m.sp (2 * n) m.x } := by
  induction n with
  | zero =>
    have : storeWords m.mem m.sp (2 * 0) m.x = m.mem := funext fun a => storeWords_out (by omega)
    rw [this]
    rfl
  | succ n ih =>
    have hsplit : stpBlock (n + 1) = stpBlock n ++ [.stp (2 * n) (2 * n + 1) (16 * n)] := by
      simp [stpBlock, List.range_succ]
    rw [hsplit, exec_append, ih]
    simp only [exec, Instr.exec, Machine.storePair, Machine.store, Machine.mk.injEq, true_and, and_true]
    rw [show 2 * (n + 1) = 2 * n + 1 + 1 by omega, storeWords_succ, storeWords_succ,
      show m.sp + 16 * n = m.sp + 8 * (2 * n) by omega]
    rfl

theorem exec_ldpBlock (lo n : Nat) (m : Machine) :
    exec (ldpBlock lo n) m =
      { m with x := fun i => if 2 * lo ≤ i ∧ i < 2 * (lo + n) then m.mem (m.sp + 8 * i) else m.x i } := by
  induction n with
  | zero =>
    have : (fun i => if 2 * lo ≤ i ∧ i < 2 * (lo + 0) then m.mem (m.sp + 8 * i) else m.x i) = m.x :=
      funext fun i => if_neg (by omega)
    rw [this]
    rfl
  | succ n ih =>
    have hsplit : ldpBlock lo (n + 1) =
        ldpBlock lo n ++ [.ldp (2 * (lo + n)) (2 * (lo + n) + 1) (16 * (lo + n))] := by
      simp [ldpBlock, List.range'_concat]
    rw [hsplit, exec_append, ih]
    simp only [exec, Instr.exec, Machine.loadPair, Machine.setX, Machine.mk.injEq, and_true]
    funext i
    by_cases h1 : i = 2 * (lo + n) + 1
    · rw [h1, Function.update_self, if_pos (by omega)]
      congr 1
      omega
    rw [Function.update_of_ne h1]
    by_cases h2 : i = 2 * (lo + n)
    · rw [h2, Function.update_self, if_pos (by omega)]
      congr 1
      omega
    rw [Function.update_of_ne h2]
    have hiff : (2 * lo ≤ i ∧ i < 2 * (lo + n)) ↔ (2 * lo ≤ i ∧ i < 2 * (lo + (n + 1))) := by omega
    simp only [hiff]

theorem exec_pushBlock {lo n : Nat} {m : Machine} (hsp : 16 * n ≤ m.sp) :
    exec (pushBlock lo n) m =
      { m with sp := m.sp - 16 * n,
               mem := storeWords m.mem (m.sp - 16 * n) (2 * n) fun j => m.x (lo + j) } := by
  induction n generalizing m with
  | zero =>
    have : storeWords m.mem (m.sp - 16 * 0) (2 * 0) (fun j => m.x (lo + j)) = m.mem :=
      funext fun a => storeWords_out (by omega)
    rw [this]
    rfl
  | succ n ih =>
    rw [pushBlock, exec, ih (by simp only [Instr.exec]; omega)]
    simp only [Instr.exec, Machine.storePair, Machine.store, Machine.mk.injEq, true_and, and_true]
    refine ⟨by omega, ?_⟩
    have hsp' : m.sp - 16 - 16 * n = m.sp - 16 * (n + 1) := by omega
    rw [hsp']
    generalize hb : m.sp - 16 * (n + 1) = b
    have h16 : m.sp - 16 = b + 8 * (2 * n) := by omega
    rw [h16]
    rw [show 2 * (n + 1) = 2 * n + 1 + 1 by omega, storeWords_succ, storeWords_succ]
    -- the pair just pushed lies above the block pushed after it
    funext a
    by_cases h1 : a = b + 8 * (2 * n) + 8
    · rw [h1, storeWords_out (by omega), Function.update_self,
        show b + 8 * (2 * n) + 8 = b + 8 * (2 * n + 1) by omega, Function.update_self]
      rfl
    by_cases h2 : a = b + 8 * (2 * n)
    · rw [h2, storeWords_out (by omega), Function.update_of_ne (by omega), Function.update_self,
        Function.update_of_ne (by omega), Function.update_self]
    rw [Function.update_of_ne (by omega), Function.update_of_ne h2]
    unfold storeWords
    rw [Function.update_of_ne h1, Function.update_of_ne h2]

theorem exec_popBlock {lo n : Nat} {m : Machine} :
    exec (popBlock lo n) m =
      { m with sp := m.sp + 16 * n,
               x := fun i => if lo ≤ i ∧ i < lo + 2 * n then m.mem (m.sp + 8 * (i - lo)) else m.x i } := by
  induction n generalizing lo m with
  | zero =>
    have : (fun i => if lo ≤ i ∧ i < lo + 2 * 0 then m.mem (m.sp + 8 * (i - lo)) else m.x i) = m.x :=
      funext fun i => if_neg (by omega)
    rw [this]
    rfl
  | succ n ih =>
    rw [popBlock, exec, ih]
    simp only [Instr.exec, Machine.loadPair, Machine.setX, Machine.mk.injEq, and_true]
    refine ⟨?_, by omega⟩
    funext i
    by_cases h1 : lo + 2 ≤ i ∧ i < lo + 2 + 2 * n
    · rw [if_pos h1, if_pos (by omega)]
      congr 1
      omega
    rw [if_neg h1]
    by_cases h2 : i = lo + 1
    · rw [h2, Function.update_self, if_pos (by omega)]
      congr 1
      omega
    rw [Function.update_of_ne h2]
    by_cases h3 : i = lo
    · rw [h3, Function.update_self, if_pos (by omega)]
      congr 1
      omega
    rw [Function.update_of_ne h3, if_neg (by omega)]

end A64
