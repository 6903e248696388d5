import QuestOS.Align
import QuestOS.Context.Switch
import QuestOS.Memblock.Model

/-!
# User processes as the loader leaves them

The parts of `struct process_struct` that the initialisation of a user process reads or writes, the
memory layout of a process, and the two checks that decide whether its initial stack fits.
-/

namespace QuestOS

open Context (UserRegs)

/-! ### Layout -/

def processMaxCount : Nat := 128

def processMaxArgs : Nat := 128

def processImageStart : Nat := 0x40000000

def processImageEnd : Nat := processImageStart + 0x100000000

def processMetaStart : Nat := processImageEnd

def processMetaEnd : Nat := processMetaStart + 0x40000000

/-- `PROCESS_STACK_TOP`: above the meta window a hole of 1 GiB, then 256 GiB of heap and stack. -/
def processStackTop : Nat := processMetaEnd + 0x40000000 + 0x4000000000

def processDefaultStackSize : Nat := 2 * pageSize

def processMaxStackSize : Nat := 16 * pageSize

def processDefaultHeapSize : Nat := 16 * pageSize

def threadSize : Nat := 2 ^ 14

/-! ### Data -/

/-- `struct process_image`; the arrays of pointers have as many entries as their counts say. -/
structure ProcessImage where
  metaData : Nat
  metaSize : Nat
  argc : Nat
  argv : List Nat
  envCount : Nat
  env : List Nat
  auxvCount : Nat
  auxv : List Nat
  stackSize : Nat
  entryPoint : Nat
  deriving DecidableEq, Repr

/-- `struct memory_struct`; of the list of segments only its length is kept here. -/
structure MemoryStruct where
  pgDirUnaligned : Nat
  pgDir : Nat
  stack : Nat
  stackSize : Nat
  heap : Nat
  heapSize : Nat
  vmRegionCount : Nat
  deriving DecidableEq, Repr

/-- `struct process_struct` of a user process; `frame` is the `user_pt_regs` at `sp`, once it is
written. -/
structure UserProcess where
  image : ProcessImage
  mm : MemoryStruct
  kernelStack : Nat
  sp : Nat
  frame : Option UserRegs
  pid : Nat

/-! ### The size of the initial stack -/

def calculateStackMetaSize (img : ProcessImage) : Nat :=
  let size := 8 + 8 * (img.argc + 1)
  let size := size + 8 * (img.envCount + 1)
  let size := size + 16 * img.auxvCount
  alignUp size 16

/-- The checks of `process_stack_init` before it writes: `none` is its `BUG_ON`, the error is
`-ENOMEM`, the value `used_size`. -/
def processStackCheck (mm : MemoryStruct) (img : ProcessImage) : Option (Except Int Nat) :=
  let spTop := mm.stack + mm.stackSize
  if spTop % 16 ≠ 0 then none
  else
    let usedSize := calculateStackMetaSize img
    if mm.stackSize < usedSize then some (.error negEnomem) else some (.ok usedSize)

structure ProcessImage.Checked (img : ProcessImage) : Prop where
  argc_le : img.argc ≤ processMaxArgs
  envCount_le : img.envCount ≤ processMaxArgs
  auxvCount_le : img.auxvCount ≤ processMaxArgs
  stackSize_mod : img.stackSize % pageSize = 0

theorem alignUp_pageSize (x : Nat) : alignUp x pageSize = (x + 4095) % 2 ^ 64 / 4096 * 4096 := alignUp_eq x 12

theorem alignUp_pageSize_mod (x : Nat) : alignUp x pageSize % 4096 = 0 := by
  rw [alignUp_pageSize]
  exact Nat.mul_mod_left _ _

theorem alignUp_pageSize_ne_zero {x : Nat} (h0 : x ≠ 0) (h : x + 4095 < 2 ^ 64) : alignUp x pageSize ≠ 0 := by
  rw [alignUp_pageSize, Nat.mod_eq_of_lt h]
  omega

theorem calculateStackMetaSize_eq {img : ProcessImage} (h : img.Checked) :
    calculateStackMetaSize img = (8 + 8 * (img.argc + 1) + 8 * (img.envCount + 1) + 16 * img.auxvCount + 15) / 16 * 16 := by
  have h1 := h.argc_le
  have h2 := h.envCount_le
  have h3 := h.auxvCount_le
  simp only [processMaxArgs] at h1 h2 h3
  rw [calculateStackMetaSize, show (16 : Nat) = 2 ^ 4 from rfl, alignUp_eq, Nat.mod_eq_of_lt (by omega)]
  rfl

theorem processStackCheck_ok {mm : MemoryStruct} {img : ProcessImage} {used : Nat}
    (h : processStackCheck mm img = some (.ok used)) :
    (mm.stack + mm.stackSize) % 16 = 0 ∧ used = calculateStackMetaSize img ∧ used ≤ mm.stackSize := by
  rw [processStackCheck] at h
  dsimp only at h
  split at h
  · cases h
  · split at h
    · cases h
    · cases h
      exact ⟨by omega, rfl, by omega⟩

theorem processStackCheck_eq {mm : MemoryStruct} (img : ProcessImage) (h1 : mm.stack % 16 = 0)
    (h2 : mm.stackSize % 16 = 0) :
    processStackCheck mm img =
      if mm.stackSize < calculateStackMetaSize img then some (.error negEnomem)
      else some (.ok (calculateStackMetaSize img)) := by
  rw [processStackCheck]
  dsimp only
  rw [if_neg (by omega)]

end QuestOS
