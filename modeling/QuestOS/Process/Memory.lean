import QuestOS.Process.Loader
import QuestOS.Process.Stack
import QuestOS.Process.Table

/-!
# The memory of a process

`process_memory_init` of `process.c` with its allocations and mappings, the rest of the loop body of
`user_processes_struct_init`, and the two ways out of it.  The pointers that are passed to `kfree` on the way
out are recorded, in order.  As in the model of the table of processes, the contents of
`struct process_struct` are a record, and the registers of a new process a field of it.  `none` means that a
call does not return.
-/

namespace QuestOS.ProcMem

open Bytes PageTable

/-! ### Mapping -/

def userProt : Entry := 3#64 <<< 8 ||| pteAf ||| ptePxn ||| pteUser ||| 3#64

def processGetSegmentPgprot (flags : Nat) : Entry :=
  let prot := userProt
  let prot := if flags.testBit 0 then prot else prot ||| pteUxn
  if flags.testBit 1 then prot ||| pteWrite
  else if flags.testBit 2 then prot ||| pteRdonly
  else prot &&& ~~~pteUser

def pgprotUserRw : Entry := userProt ||| pteWrite ||| pteUxn

/-- `process_map_memory`; the loop that frees the tables after an error reads the same record again and
again. -/
def processMapMemory (pgDir phys virt size : Nat) (prot : Entry) (s : VmState) : Option (VmState × Int) :=
  match vmapPhysRangeNoflush pgDir phys virt size prot s with
  | none => none
  | some (s, err) => if err = 0 then some (s, 0) else if s.pgtableMem = 0 then some (s, err) else none

def processMapSegments (pgDir : Nat) : List VmemSegment → VmState → Option (VmState × Int)
  | [], s => some (s, 0)
  | seg :: segs, s =>
    match processMapMemory pgDir seg.pa seg.vaStart (sub64 seg.vaEnd seg.vaStart) (processGetSegmentPgprot seg.flags) s with
    | none => none
    | some (s, err) => if err ≠ 0 then some (s, err) else processMapSegments pgDir segs s

def processMapMeta (pgDir : Nat) (img : ProcessImage) (s : VmState) : Option (VmState × Int) :=
  processMapMemory pgDir img.metaData processMetaStart (alignUp img.metaSize pageSize) pgprotUserRw s

def processMapStack (mm : MemoryStruct) (s : VmState) : Option (VmState × Int) :=
  processMapMemory mm.pgDir mm.stack (processStackTop - mm.stackSize) mm.stackSize pgprotUserRw s

def processMapAll (p : LoadedProcess) (mm : MemoryStruct) (s : VmState) : Option (VmState × Int) :=
  match processMapSegments mm.pgDir p.segments s with
  | none => none
  | some (s, err) =>
    if err ≠ 0 then some (s, err)
    else
      match processMapMeta mm.pgDir p.user.image s with
      | none => none
      | some (s, err) => if err ≠ 0 then some (s, err) else processMapStack mm s

/-! ### Setting up and tearing down -/

def kfreeAll : List Nat → Heap → Option Heap
  | [], h => some h
  | ptr :: ptrs, h => (kfree ptr h).bind fun q => kfreeAll ptrs q.1

def processMemoryInit (p : LoadedProcess) (h : Heap) : Option (VmState × Except (List Nat) UserProcess) :=
  let stackSize := chooseStackSize p.user.image.stackSize
  match kmalloc stackSize true h with
  | none => none
  | some (h, none) => some (⟨h, 0⟩, .error [])
  | some (h, some stack) =>
    let mm := { p.user.mm with stack := alignUp stack pageSize, stackSize := stackSize }
    match kmalloc processDefaultHeapSize true h with
    | none => none
    | some (h, none) => (kfreeAll [mm.stack] h).map fun h => (⟨h, 0⟩, .error [mm.stack])
    | some (h, some heap) =>
      let mm := { mm with heap := heap, heapSize := processDefaultHeapSize }
      match kmalloc pageSize true h with
      | none => none
      | some (h, none) => (kfreeAll [mm.heap, mm.stack] h).map fun h => (⟨h, 0⟩, .error [mm.heap, mm.stack])
      | some (h, some pgDir) =>
        let mm := { mm with pgDirUnaligned := pgDir, pgDir := alignUp pgDir pageSize }
        match processMapAll p mm ⟨h, 0⟩ with
        | none => none
        | some (s, err) =>
          if err ≠ 0 then
            let s := s.setMem (fill s.mem mm.pgDir pageSize 0)
            (kfreeAll [mm.heap, mm.stack] s.heap).map fun h => ({ s with heap := h }, .error [mm.heap, mm.stack])
          else some (s, .ok { p.user with mm := mm })

/-- What `process_destroy` frees; a list of segments that is shorter than its length makes it fault. -/
def processDestroy (p : LoadedProcess) (h : Heap) : Option (Heap × List Nat) :=
  if p.segments.length < p.user.mm.vmRegionCount then none
  else
    let ptrs := (p.segments.take p.user.mm.vmRegionCount).map VmemSegment.self ++ [p.self]
    (kfreeAll ptrs h).map fun h => (h, ptrs)

def releaseMmResource (mm : MemoryStruct) (s : VmState) : Option (Heap × List Nat) :=
  let s := s.setMem (fill s.mem mm.pgDir pageSize 0)
  (kfreeAll [mm.heap, mm.stack] s.heap).map fun h => (h, [mm.heap, mm.stack])

def destroyAfter (p : LoadedProcess) (h : Heap) (freed : List Nat) : Option (Heap × Except (List Nat) UserProcess) :=
  (processDestroy p h).map fun q => (q.1, .error (freed ++ q.2))

def initProcess (maxPid : Nat) (p : LoadedProcess) (h : Heap) : Option (Heap × Except (List Nat) UserProcess) :=
  match processMemoryInit p h with
  | none => none
  | some (s, .error freed) => destroyAfter p s.heap freed
  | some (s, .ok proc) =>
    match processStackInit proc.mm proc.image s.mem with
    | none => none
    | some (.error _) => (releaseMmResource proc.mm s).bind fun q => destroyAfter p q.1 q.2
    | some (.ok (used, m)) =>
      let s := s.setMem m
      match kmalloc threadSize true s.heap with
      | none => none
      | some (h, none) => (releaseMmResource proc.mm { s with heap := h }).bind fun q => destroyAfter p q.1 q.2
      | some (h, some kernelStack) =>
        let proc := processCalculateInitRegval { proc with kernelStack := kernelStack } (processStackTop - used)
        some (h, .ok { proc with pid := maxPid })

theorem chooseStackSize_ne_zero (n : Nat) : chooseStackSize n ≠ 0 := by
  unfold chooseStackSize
  split
  · decide
  · split
    · decide
    · assumption

end QuestOS.ProcMem
