import Mathlib.Data.List.Nodup
import Mathlib.Logic.Function.Basic
import QuestOS.Process.Image
import QuestOS.Sched.Model

/-!
# The table of user processes

`user_processes_struct_init` walks over `g_processes` and destroys the processes it cannot initialise;
`process_destroy` closes the gap in the array, so that the process after a destroyed one takes its
place and is not visited.  What the allocator and the page-table code answer for a process is a
parameter; every pattern of failures is some value of it.

`kept`, `inited` and `destroyed` say what the walk does to the list of processes, and
`structInitLoop_spec` that the loop does that.
-/

namespace QuestOS

open Context (UserRegs ptRegsSize)

/-! ### One process -/

/-- The answers of `kmalloc` (0 is NULL) and of the mapping functions (0 is success) for one process. -/
structure InitEnv where
  stack : Nat
  heap : Nat
  pgDir : Nat
  pgDir_lt : pgDir + 4095 < 2 ^ 64
  mapSegments : Int
  mapMeta : Int
  mapStack : Int
  kernelStack : Nat

inductive ProcBlock
  | process
  | segment (i : Nat)
  | heap
  | stack
  deriving DecidableEq, Repr

def chooseStackSize (stackSize : Nat) : Nat :=
  if processMaxStackSize < stackSize then processMaxStackSize
  else if stackSize = 0 then processDefaultStackSize
  else stackSize

def processMemoryInit (env : InitEnv) (proc : UserProcess) : Except (List ProcBlock) UserProcess :=
  let stackSize := chooseStackSize proc.image.stackSize
  if env.stack = 0 then .error []
  else
    let mm := { proc.mm with stack := alignUp env.stack pageSize, stackSize := stackSize, heap := env.heap }
    if env.heap = 0 then .error [.stack]
    else
      let mm := { mm with heapSize := processDefaultHeapSize, pgDirUnaligned := env.pgDir }
      if env.pgDir = 0 then .error [.heap, .stack]
      else
        let mm := { mm with pgDir := alignUp env.pgDir pageSize }
        if env.mapSegments ≠ 0 then .error [.heap, .stack]
        else if env.mapMeta ≠ 0 then .error [.heap, .stack]
        else if env.mapStack ≠ 0 then .error [.heap, .stack]
        else .ok { proc with mm := mm }

def initEl0Pstate : Nat := 0x01000000

def processCalculateInitRegval (proc : UserProcess) (spEl0 : Nat) : UserProcess :=
  { proc with
    sp := proc.kernelStack + threadSize - ptRegsSize
    frame := some ⟨fun _ => 0, spEl0, proc.image.entryPoint, initEl0Pstate⟩ }

/-- The body of the loop of `user_processes_struct_init`, up to `process_destroy`: `none` is a `BUG_ON`,
an error what was freed. -/
def initOne (env : InitEnv) (maxPid : Nat) (proc : UserProcess) : Option (Except (List ProcBlock) UserProcess) :=
  match processMemoryInit env proc with
  | .error freed => some (.error freed)
  | .ok proc =>
    match processStackCheck proc.mm proc.image with
    | none => none
    | some (.error _) => some (.error [.heap, .stack])
    | some (.ok used) =>
      if env.kernelStack = 0 then some (.error [.heap, .stack])
      else
        let proc := processCalculateInitRegval { proc with kernelStack := env.kernelStack } (processStackTop - used)
        some (.ok { proc with pid := maxPid })

def initOk (env : InitEnv) (proc : UserProcess) : Bool :=
  env.stack != 0 && env.heap != 0 && env.pgDir != 0 && env.mapSegments == 0 && env.mapMeta == 0 &&
    env.mapStack == 0 && decide (calculateStackMetaSize proc.image ≤ chooseStackSize proc.image.stackSize) &&
    env.kernelStack != 0

/-! ### The table -/

/-- `g_processes`, `g_processes_count`, `max_pid` and the processes the pointers point to; the last two
fields record what was freed and which indices of `g_processes` were read. -/
structure ProcessTable where
  slots : Nat → Pid
  count : Nat
  maxPid : Nat
  procs : Pid → UserProcess
  freed : List (Pid × ProcBlock)
  reads : List Nat

def ProcessTable.read (s : ProcessTable) (i : Nat) : ProcessTable := { s with reads := s.reads ++ [i] }

def shiftDown : (n i : Nat) → ProcessTable → ProcessTable
  | 0, _, s => s
  | n + 1, i, s =>
    shiftDown n (i + 1) { s.read (i + 1) with slots := Function.update s.slots i (s.slots (i + 1)) }

/-- The outer loop from index `i`, with `n` entries to look at.  The inner loop leaves the index at the last
entry, which ends the outer one. -/
def destroyLoop (proc : Pid) : (n i : Nat) → ProcessTable → ProcessTable
  | 0, _, s => s
  | n + 1, i, s =>
    if s.slots i ≠ proc then destroyLoop proc n (i + 1) (s.read i)
    else shiftDown n i (s.read i)

def processDestroy (proc : Pid) (s : ProcessTable) : ProcessTable :=
  let segments := (List.range (s.procs proc).mm.vmRegionCount).map ProcBlock.segment
  let s := { s with freed := s.freed ++ (segments ++ [ProcBlock.process]).map (proc, ·) }
  let s := destroyLoop proc s.count 0 s
  { s with count := s.count - 1 }

def structInitLoop (env : Pid → InitEnv) : (fuel idx : Nat) → Pid → ProcessTable → Option ProcessTable
  | 0, _, _, _ => none
  | fuel + 1, idx, proc, s =>
    if idx < s.count then
      match initOne (env proc) s.maxPid (s.procs proc) with
      | none => none
      | some (.ok p) =>
        let s := { s with procs := Function.update s.procs proc p, maxPid := s.maxPid + 1 }
        structInitLoop env fuel (idx + 1) (s.slots (idx + 1)) (s.read (idx + 1))
      | some (.error freed) =>
        let s := processDestroy proc { s with freed := s.freed ++ freed.map (proc, ·) }
        structInitLoop env fuel (idx + 1) (s.slots (idx + 1)) (s.read (idx + 1))
    else some s

def userProcessesStructInit (env : Pid → InitEnv) (s : ProcessTable) : Option ProcessTable :=
  structInitLoop env (s.count + 1) 0 (s.slots 0) (s.read 0)

def userProcessesRegister (s : ProcessTable) : List (Nat × Pid) :=
  (List.range s.count).map fun i => (i % maxCpus, s.slots i)

def ProcessTable.entries (s : ProcessTable) : List Pid := (List.range s.count).map s.slots

/-! ### One process, once more -/

structure UserProcess.Initialised (proc : UserProcess) : Prop where
  pgDir : proc.mm.pgDir ≠ 0
  kernelStack : proc.kernelStack ≠ 0
  sp : proc.sp = proc.kernelStack + threadSize - ptRegsSize
  frame : proc.frame = some ⟨fun _ => 0, processStackTop - calculateStackMetaSize proc.image,
    proc.image.entryPoint, initEl0Pstate⟩

structure UserProcess.Loaded (proc : UserProcess) : Prop where
  checked : proc.image.Checked
  kernelStack : proc.kernelStack = 0
  frame : proc.frame = none

variable {env : InitEnv} {proc : UserProcess} {pid : Nat}

theorem chooseStackSize_mod {n : Nat} (h : n % pageSize = 0) : chooseStackSize n % 4096 = 0 := by
  unfold chooseStackSize
  split
  · decide
  · split
    · decide
    · exact h

/-- What frees the failing branches have in common: the process itself is freed elsewhere. -/
theorem initOne_spec (env : InitEnv) (pid : Nat) (h : proc.Loaded) :
    (initOk env proc = true ∧ ∃ p, initOne env pid proc = some (.ok p) ∧ p.Initialised ∧ p.pid = pid) ∨
    initOk env proc = false ∧ ∃ freed, initOne env pid proc = some (.error freed) ∧ ProcBlock.process ∉ freed := by
  unfold initOne processMemoryInit initOk
  dsimp only
  by_cases h1 : env.stack = 0
  · exact .inr ⟨by simp [h1], [], by rw [if_pos h1], by simp⟩
  rw [if_neg h1]
  by_cases h2 : env.heap = 0
  · exact .inr ⟨by simp [h2], [.stack], by rw [if_pos h2], by simp⟩
  rw [if_neg h2]
  by_cases h3 : env.pgDir = 0
  · exact .inr ⟨by simp [h3], [.heap, .stack], by rw [if_pos h3], by simp⟩
  rw [if_neg h3]
  by_cases h4 : env.mapSegments ≠ 0
  · exact .inr ⟨by simp [h4], [.heap, .stack], by rw [if_pos h4], by simp⟩
  rw [if_neg h4]
  by_cases h5 : env.mapMeta ≠ 0
  · exact .inr ⟨by simp [h5], [.heap, .stack], by rw [if_pos h5], by simp⟩
  rw [if_neg h5]
  by_cases h6 : env.mapStack ≠ 0
  · exact .inr ⟨by simp [h6], [.heap, .stack], by rw [if_pos h6], by simp⟩
  rw [if_neg h6]
  dsimp only
  have hstack := alignUp_pageSize_mod env.stack
  have hsize := chooseStackSize_mod h.checked.stackSize_mod
  rw [processStackCheck_eq _ (by dsimp only; omega) (by dsimp only; omega)]
  dsimp only
  by_cases h7 : chooseStackSize proc.image.stackSize < calculateStackMetaSize proc.image
  · refine .inr ⟨?_, [.heap, .stack], by rw [if_pos h7], by simp⟩
    simp [Nat.not_le.mpr h7]
  rw [if_neg h7]
  dsimp only
  by_cases h8 : env.kernelStack = 0
  · exact .inr ⟨by simp [h8], [.heap, .stack], by rw [if_pos h8], by simp⟩
  rw [if_neg h8]
  refine .inl ⟨?_, _, rfl, ⟨alignUp_pageSize_ne_zero h3 env.pgDir_lt, h8, rfl, rfl⟩, rfl⟩
  simp only [ne_eq, not_not] at h4 h5 h6
  simp [h1, h2, h3, h4, h5, h6, h8, Nat.not_lt.mp h7]

/-! ### Closing the gap -/

variable {s s' : ProcessTable} {p q : Pid} {n i j : Nat}

structure SameButSlots (s s' : ProcessTable) : Prop where
  count : s'.count = s.count
  maxPid : s'.maxPid = s.maxPid
  procs : s'.procs = s.procs
  freed : s'.freed = s.freed
  reads : s.reads ⊆ s'.reads

theorem shiftDown_spec (n i : Nat) (s : ProcessTable) :
    SameButSlots s (shiftDown n i s) ∧
      (∀ j, (shiftDown n i s).slots j = if i ≤ j ∧ j < i + n then s.slots (j + 1) else s.slots j) ∧
      ∀ r ∈ (shiftDown n i s).reads, r ∈ s.reads ∨ r ≤ i + n := by
  induction n generalizing i s with
  | zero => exact ⟨⟨rfl, rfl, rfl, rfl, List.Subset.refl _⟩, fun j => by rw [if_neg (by omega)]; rfl,
      fun r hr => .inl hr⟩
  | succ n ih =>
    obtain ⟨h1, h2, h3⟩ :=
      ih (i + 1) { s.read (i + 1) with slots := Function.update s.slots i (s.slots (i + 1)) }
    refine ⟨⟨h1.count, h1.maxPid, h1.procs, h1.freed, List.Subset.trans (List.subset_append_left _ _) h1.reads⟩, fun j => ?_, fun r hr => ?_⟩
    · rw [shiftDown, h2]
      dsimp only
      by_cases hj : j = i
      · rw [if_neg (by omega), hj, Function.update_self, if_pos (by omega)]
      · by_cases hin : i + 1 ≤ j ∧ j < i + 1 + n
        · rw [if_pos hin, if_pos (by omega), Function.update_of_ne (by omega)]
        · rw [if_neg hin, if_neg (by omega), Function.update_of_ne hj]
    · rcases h3 r hr with hr | hr
      · simp only [ProcessTable.read, List.mem_append, List.mem_singleton] at hr
        rcases hr with hr | rfl
        · exact .inl hr
        · exact .inr (by omega)
      · exact .inr (by omega)

theorem destroyLoop_spec (m : Nat) (hm : s.slots m = p) (him : i ≤ m) (hn : m < i + n)
    (hbefore : ∀ j, i ≤ j → j < m → s.slots j ≠ p) :
    SameButSlots s (destroyLoop p n i s) ∧
      (∀ j, (destroyLoop p n i s).slots j = if m ≤ j ∧ j < i + n - 1 then s.slots (j + 1) else s.slots j) ∧
      ∀ r ∈ (destroyLoop p n i s).reads, r ∈ s.reads ∨ r < i + n := by
  induction n generalizing i s with
  | zero => omega
  | succ n ih =>
    rw [destroyLoop]
    rcases Nat.eq_or_lt_of_le him with rfl | hlt
    · rw [if_neg (by simp [hm])]
      obtain ⟨h1, h2, h3⟩ := shiftDown_spec n i (s.read i)
      refine ⟨⟨h1.count, h1.maxPid, h1.procs, h1.freed, List.Subset.trans (List.subset_append_left _ _) h1.reads⟩, fun j => ?_, fun r hr => ?_⟩
      · rw [h2]
        rfl
      · rcases h3 r hr with hr | hr
        · simp only [ProcessTable.read, List.mem_append, List.mem_singleton] at hr
          rcases hr with hr | rfl
          · exact .inl hr
          · exact .inr (by omega)
        · exact .inr (by omega)
    · rw [if_pos (hbefore i (Nat.le_refl _) hlt)]
      obtain ⟨h1, h2, h3⟩ := ih (s := s.read i) (i := i + 1) hm hlt (by omega)
        fun j hj hjm => hbefore j (by omega) hjm
      refine ⟨⟨h1.count, h1.maxPid, h1.procs, h1.freed, List.Subset.trans (List.subset_append_left _ _) h1.reads⟩, fun j => ?_, fun r hr => ?_⟩
      · rw [h2, show i + 1 + n - 1 = i + (n + 1) - 1 by omega]
        rfl
      · rcases h3 r hr with hr | hr
        · simp only [ProcessTable.read, List.mem_append, List.mem_singleton] at hr
          rcases hr with hr | rfl
          · exact .inl hr
          · exact .inr (by omega)
        · exact .inr (by omega)

theorem entries_eq_iff {l : List Pid} :
    s.entries = l ↔ s.count = l.length ∧ ∀ i (h : i < l.length), s.slots i = l[i] := by
  constructor
  · rintro rfl
    refine ⟨by simp [ProcessTable.entries], fun i h => by simp [ProcessTable.entries]⟩
  · rintro ⟨h1, h2⟩
    refine List.ext_getElem (by simp [ProcessTable.entries, h1]) fun i hi hi' => ?_
    simp only [ProcessTable.entries, List.getElem_map, List.getElem_range]
    exact h2 i hi'

theorem processDestroy_spec {A B : List Pid} (hs : s.entries = A ++ p :: B) (hp : p ∉ A) :
    (processDestroy p s).entries = A ++ B ∧ (processDestroy p s).procs = s.procs ∧
      (processDestroy p s).maxPid = s.maxPid ∧
      (∃ segs : List Nat, (processDestroy p s).freed =
        s.freed ++ (segs.map ProcBlock.segment ++ [ProcBlock.process]).map (p, ·)) ∧
      s.reads ⊆ (processDestroy p s).reads ∧ ∀ r ∈ (processDestroy p s).reads, r ∈ s.reads ∨ r < s.count := by
  obtain ⟨hcount, hslots⟩ := entries_eq_iff.mp hs
  have hlen : (A ++ p :: B).length = A.length + B.length + 1 := by
    simp only [List.length_append, List.length_cons]
    omega
  rw [hlen] at hcount
  have hget : ∀ i, (h : i < A.length + B.length + 1) → s.slots i = (A ++ p :: B)[i] :=
    fun i h => hslots i (by rw [hlen]; exact h)
  have hm : s.slots A.length = p := by
    rw [hget A.length (by omega)]
    simp
  have hbefore : ∀ j, 0 ≤ j → j < A.length → s.slots j ≠ p := by
    intro j _ hj heq
    rw [hget j (by omega), List.getElem_append_left hj] at heq
    exact hp (heq ▸ List.getElem_mem hj)
  obtain ⟨h1, h2, h3⟩ := destroyLoop_spec (s := { s with freed := s.freed ++
    ((List.range (s.procs p).mm.vmRegionCount).map ProcBlock.segment ++ [ProcBlock.process]).map (p, ·) })
    (n := s.count) A.length hm (Nat.zero_le _) (by omega) hbefore
  refine ⟨entries_eq_iff.mpr ⟨?_, fun i hi => ?_⟩, h1.procs, h1.maxPid, ⟨_, h1.freed⟩, h1.reads,
    fun r hr => ?_⟩
  · simp only [processDestroy, h1.count, List.length_append]
    omega
  · rw [List.length_append] at hi
    simp only [processDestroy]
    rw [h2]
    dsimp only
    by_cases hiA : i < A.length
    · rw [if_neg (by omega), hget i (by omega), List.getElem_append_left hiA, List.getElem_append_left hiA]
    · rw [if_pos (by omega), hget (i + 1) (by omega), List.getElem_append_right (by omega),
        List.getElem_append_right (by omega)]
      simp only [show i + 1 - A.length = i - A.length + 1 by omega, List.getElem_cons_succ]
  · simpa using h3 r hr

/-! ### The walk over the list -/

section Walk

variable (ok : Pid → Bool)

/-- The processes that are left: after a failure the next process is kept unseen. -/
def kept : List Pid → List Pid
  | [] => []
  | [p] => if ok p then [p] else []
  | p :: q :: rest => if ok p then p :: kept (q :: rest) else q :: kept rest

def inited : List Pid → List Pid
  | [] => []
  | [p] => if ok p then [p] else []
  | p :: q :: rest => if ok p then p :: inited (q :: rest) else inited rest

def destroyed : List Pid → List Pid
  | [] => []
  | [p] => if ok p then [] else [p]
  | p :: q :: rest => if ok p then destroyed (q :: rest) else p :: destroyed rest

end Walk

variable {ok : Pid → Bool} {done todo : List Pid}

theorem kept_cons (h : ok p = true) (l : List Pid) : kept ok (p :: l) = p :: kept ok l := by
  cases l <;> simp [kept, h]

theorem inited_cons (h : ok p = true) (l : List Pid) : inited ok (p :: l) = p :: inited ok l := by
  cases l <;> simp [inited, h]

theorem destroyed_cons (h : ok p = true) (l : List Pid) : destroyed ok (p :: l) = destroyed ok l := by
  cases l <;> simp [destroyed, h]

theorem inited_sublist (ok : Pid → Bool) (l : List Pid) : (inited ok l).Sublist l := by
  induction l using inited.induct ok with
  | case1 => exact .refl _
  | case2 p h => rw [inited, if_pos h]
  | case3 p h =>
    rw [inited, if_neg h]
    exact List.nil_sublist _
  | case4 p q rest h ih =>
    rw [inited, if_pos h]
    exact ih.cons_cons p
  | case5 p q rest h ih =>
    rw [inited, if_neg h]
    exact (ih.cons q).cons p

theorem kept_subset (ok : Pid → Bool) (l : List Pid) : kept ok l ⊆ l := by
  induction l using kept.induct ok with
  | case1 => exact List.Subset.refl _
  | case2 p h => simp [kept, h]
  | case3 p h => simp [kept, h]
  | case4 p q rest h ih =>
    rw [kept, if_pos h]
    exact List.cons_subset_cons p ih
  | case5 p q rest h ih =>
    rw [kept, if_neg h]
    exact List.subset_cons_of_subset p (List.cons_subset_cons q ih)

structure Walked (ok : Pid → Bool) (done todo : List Pid) (s s' : ProcessTable) : Prop where
  entries : s'.entries = done ++ kept ok todo
  procs : ∀ p, p ∉ inited ok todo → s'.procs p = s.procs p
  inited : ∀ p ∈ inited ok todo, (s'.procs p).Initialised ∧ s.maxPid ≤ (s'.procs p).pid
  pids : ((QuestOS.inited ok todo).map fun p => (s'.procs p).pid).Nodup
  freed : ∀ p, s'.freed.count (p, .process) = s.freed.count (p, .process) + (destroyed ok todo).count p
  reads_le : ∀ r ∈ s'.reads, r ∈ s.reads ∨ r ≤ done.length + todo.length
  reads_mono : ∀ r ∈ s.reads, r ∈ s'.reads
  reads_end : (∀ p ∈ todo.dropLast, ok p = true) → todo ≠ [] → done.length + todo.length ∈ s'.reads

theorem slots_length (hs : s.entries = done ++ p :: todo) : s.slots done.length = p := by
  obtain ⟨-, h⟩ := entries_eq_iff.mp hs
  rw [h done.length (by simp)]
  simp

theorem structInitLoop_ok {env : Pid → InitEnv} {fuel : Nat} {u : UserProcess} (hs : s.entries = done ++ p :: todo)
    (h : initOne (env p) s.maxPid (s.procs p) = some (.ok u)) :
    structInitLoop env (fuel + 1) done.length (s.slots done.length) s =
      structInitLoop env fuel (done ++ [p]).length (s.slots (done ++ [p]).length)
        ({ s with procs := Function.update s.procs p u, maxPid := s.maxPid + 1 }.read (done ++ [p]).length) := by
  obtain ⟨hc, -⟩ := entries_eq_iff.mp hs
  rw [structInitLoop, if_pos (by rw [hc]; simp), slots_length hs, h, List.length_append, List.length_singleton]

theorem structInitLoop_error {env : Pid → InitEnv} {fuel : Nat} {freed : List ProcBlock}
    (hs : s.entries = done ++ p :: todo)
    (h : initOne (env p) s.maxPid (s.procs p) = some (.error freed)) :
    structInitLoop env (fuel + 1) done.length (s.slots done.length) s =
      structInitLoop env fuel (done.length + 1)
        ((processDestroy p { s with freed := s.freed ++ freed.map (p, ·) }).slots (done.length + 1))
        ((processDestroy p { s with freed := s.freed ++ freed.map (p, ·) }).read (done.length + 1)) := by
  obtain ⟨hc, -⟩ := entries_eq_iff.mp hs
  rw [structInitLoop, if_pos (by rw [hc]; simp), slots_length hs, h]

theorem structInitLoop_end {env : Pid → InitEnv} {fuel idx : Nat} (h : s.count ≤ idx) :
    structInitLoop env (fuel + 1) idx p s = some s := by
  rw [structInitLoop, if_neg (by omega)]

theorem Walked.cons_ok {u : UserProcess} (hp : p ∉ todo) (hok : ok p = true) (hu : u.Initialised)
    (hpid : u.pid = s.maxPid)
    (h : Walked ok (done ++ [p]) todo
      ({ s with procs := Function.update s.procs p u, maxPid := s.maxPid + 1 }.read (done ++ [p]).length) s') :
    Walked ok done (p :: todo) s s' := by
  have hsub := inited_sublist ok todo
  have hpi : p ∉ QuestOS.inited ok todo := fun hmem => hp (hsub.subset hmem)
  have hproc : s'.procs p = u := by
    rw [h.procs p hpi]
    exact Function.update_self ..
  have hin := inited_cons hok todo
  refine ⟨?_, fun x hx => ?_, fun x hx => ?_, ?_, fun x => ?_, fun r hr => ?_, fun r hr => ?_, fun hall _ => ?_⟩
  · rw [h.entries, kept_cons hok, List.append_assoc]
    rfl
  · rw [hin, List.mem_cons, not_or] at hx
    rw [h.procs x hx.2]
    exact Function.update_of_ne hx.1 ..
  · rw [hin] at hx
    rcases List.mem_cons.mp hx with rfl | hx
    · rw [hproc]
      exact ⟨hu, Nat.le_of_eq hpid.symm⟩
    · obtain ⟨h1, h2⟩ := h.inited x hx
      exact ⟨h1, Nat.le_of_succ_le h2⟩
  · rw [hin, List.map_cons, List.nodup_cons]
    refine ⟨fun hmem => ?_, h.pids⟩
    obtain ⟨x, hx, heq⟩ := List.mem_map.mp hmem
    have := (h.inited x hx).2
    simp only [hproc, hpid, ProcessTable.read] at heq this
    omega
  · rw [h.freed, destroyed_cons hok]
    rfl
  · rcases h.reads_le r hr with hr | hr
    · simp only [ProcessTable.read, List.mem_append, List.mem_singleton] at hr
      rcases hr with hr | rfl
      · exact .inl hr
      · exact .inr (by simp)
    · refine .inr (Nat.le_trans hr ?_)
      simp only [List.length_append, List.length_cons, List.length_nil]
      omega
  · exact h.reads_mono r (List.mem_append_left _ hr)
  · cases todo with
    | nil => exact h.reads_mono _ (List.mem_append_right _ (by simp))
    | cons q todo =>
      have := h.reads_end (fun x hx => hall x (by
        rw [List.dropLast_cons_cons]
        exact List.mem_cons_of_mem _ hx)) (by simp)
      rw [List.length_append, List.length_singleton] at this
      rwa [List.length_cons, ← Nat.add_assoc, Nat.add_right_comm]

structure Dropped (p : Pid) (done todo : List Pid) (s s' : ProcessTable) : Prop where
  entries : s'.entries = done ++ todo
  procs : s'.procs = s.procs
  maxPid : s'.maxPid = s.maxPid
  freed : ∀ x, s'.freed.count (x, .process) = s.freed.count (x, .process) + if x = p then 1 else 0
  reads_le : ∀ r ∈ s'.reads, r ∈ s.reads ∨ r ≤ done.length + todo.length + 1
  reads_mono : ∀ r ∈ s.reads, r ∈ s'.reads
  reads_next : done.length + 1 ∈ s'.reads

theorem dropped_of_error {freed : List ProcBlock} (hs : s.entries = done ++ p :: todo) (hp : p ∉ done)
    (hfreed : ProcBlock.process ∉ freed) :
    Dropped p done todo s
      ((processDestroy p { s with freed := s.freed ++ freed.map (p, ·) }).read (done.length + 1)) := by
  obtain ⟨h1, h2, h3, ⟨segs, h4⟩, h5, h6⟩ :=
    processDestroy_spec (s := { s with freed := s.freed ++ freed.map (p, ·) }) hs hp
  obtain ⟨hc, -⟩ := entries_eq_iff.mp hs
  rw [List.length_append, List.length_cons] at hc
  refine ⟨h1, h2, h3, fun x => ?_, fun r hr => ?_, fun r hr => ?_, ?_⟩
  · have hnone : ∀ l : List ProcBlock, ProcBlock.process ∉ l → (l.map (p, ·)).count (x, .process) = 0 := by
      intro l hl
      refine List.count_eq_zero.mpr fun hmem => ?_
      obtain ⟨b, hb, heq⟩ := List.mem_map.mp hmem
      cases heq
      exact hl hb
    rw [ProcessTable.read, h4, List.map_append, List.count_append, List.count_append, List.count_append,
      hnone freed hfreed, hnone _ (by simp)]
    by_cases hx : x = p
    · simp [hx]
    · simp [hx, Ne.symm hx]
  · simp only [ProcessTable.read, List.mem_append, List.mem_singleton] at hr
    rcases hr with hr | rfl
    · rcases h6 r hr with hr | hr
      · exact .inl hr
      · exact .inr (by dsimp only at hr; omega)
    · exact .inr (by omega)
  · exact List.mem_append_left _ (h5 hr)
  · exact List.mem_append_right _ (List.mem_singleton_self _)

theorem Walked.of_dropped_last (h : Dropped p done [] s s') (hok : ok p = false) : Walked ok done [p] s s' := by
  have hin : QuestOS.inited ok [p] = [] := by simp [QuestOS.inited, hok]
  refine ⟨by rw [h.entries]; simp [kept, hok], fun x _ => by rw [h.procs], by simp [hin], by simp [hin],
    fun x => ?_, fun r hr => ?_, h.reads_mono, fun _ _ => h.reads_next⟩
  · rw [h.freed]
    by_cases hx : x = p
    · simp [destroyed, hok, hx]
    · simp [destroyed, hok, hx, Ne.symm hx]
  · simpa using h.reads_le r hr

theorem Walked.of_dropped {s₁ : ProcessTable} (hd : Dropped p done (q :: todo) s s₁) (hok : ok p = false)
    (h : Walked ok (done ++ [q]) todo s₁ s') : Walked ok done (p :: q :: todo) s s' := by
  have hin : QuestOS.inited ok (p :: q :: todo) = QuestOS.inited ok todo := by simp [QuestOS.inited, hok]
  refine ⟨?_, fun x hx => ?_, fun x hx => ?_, by rw [hin]; exact h.pids, fun x => ?_, fun r hr => ?_,
    fun r hr => h.reads_mono r (hd.reads_mono r hr), fun hall _ => ?_⟩
  · rw [h.entries, List.append_assoc]
    simp [kept, hok]
  · rw [hin] at hx
    rw [h.procs x hx, hd.procs]
  · rw [hin] at hx
    have := h.inited x hx
    rwa [hd.maxPid] at this
  · rw [h.freed, hd.freed]
    by_cases hx : x = p
    · simp only [destroyed, hok, hx, if_true, Bool.false_eq_true, if_false, List.count_cons_self]
      omega
    · simp [destroyed, hok, hx, Ne.symm hx]
  · rcases h.reads_le r hr with hr | hr
    · rcases hd.reads_le r hr with hr | hr
      · exact .inl hr
      · refine .inr ?_
        simp only [List.length_cons] at hr ⊢
        omega
    · refine .inr ?_
      simp only [List.length_cons, List.length_append, List.length_nil] at hr ⊢
      omega
  · have := hall p (by simp)
    rw [hok] at this
    cases this

theorem structInitLoop_spec {env : Pid → InitEnv} {fuel : Nat} (hs : s.entries = done ++ todo)
    (hnodup : (done ++ todo).Nodup) (hload : ∀ p ∈ todo, (s.procs p).Loaded)
    (hok : ∀ p ∈ todo, ok p = initOk (env p) (s.procs p)) (hfuel : todo.length < fuel) :
    ∃ s', structInitLoop env fuel done.length (s.slots done.length) s = some s' ∧ Walked ok done todo s s' := by
  induction fuel generalizing todo done s with
  | zero => omega
  | succ fuel ih =>
    cases todo with
    | nil =>
      obtain ⟨hc, -⟩ := entries_eq_iff.mp hs
      rw [List.append_nil] at hs hc
      refine ⟨s, structInitLoop_end (by omega), by simpa [kept] using hs, fun _ _ => rfl, by simp [inited],
        by simp [inited], fun _ => by simp [destroyed], fun r hr => .inl hr, fun r hr => hr, fun _ h => absurd rfl h⟩
    | cons p todo =>
      rw [List.length_cons] at hfuel
      obtain ⟨hload₁, hload⟩ := List.forall_mem_cons.mp hload
      obtain ⟨hok₁, hok⟩ := List.forall_mem_cons.mp hok
      have hmid : (p ∉ done ∧ p ∉ todo) ∧ (done ++ todo).Nodup := by
        rwa [List.nodup_middle, List.nodup_cons, List.mem_append, not_or] at hnodup
      rcases initOne_spec (env p) s.maxPid hload₁ with ⟨h1, u, h2, h3, h4⟩ | ⟨h1, freed, h2, h3⟩
      · rw [structInitLoop_ok hs h2]
        rw [← hok₁] at h1
        generalize hs₁ : ({ s with procs := Function.update s.procs p u, maxPid := s.maxPid + 1 } :
          ProcessTable).read (done ++ [p]).length = s₁
        have hentries : s₁.entries = (done ++ [p]) ++ todo := by
          rw [List.append_assoc, ← hs₁]
          exact hs
        have hprocs : ∀ x ∈ todo, s₁.procs x = s.procs x := by
          intro x hx
          rw [← hs₁]
          exact Function.update_of_ne (fun heq : x = p => hmid.1.2 (heq ▸ hx)) ..
        obtain ⟨s', h5, h6⟩ := ih hentries (by rw [List.append_assoc]; exact hnodup)
          (fun x hx => by rw [hprocs x hx]; exact hload x hx) (fun x hx => by rw [hprocs x hx]; exact hok x hx)
          (by omega)
        have hslots : s.slots = s₁.slots := by rw [← hs₁]; rfl
        exact ⟨s', by rw [hslots]; exact h5, (hs₁ ▸ h6).cons_ok hmid.1.2 h1 h3 h4⟩
      · rw [structInitLoop_error hs h2]
        rw [← hok₁] at h1
        have hd := dropped_of_error hs hmid.1.1 h3
        generalize hs₁ : (processDestroy p { s with freed := s.freed ++ freed.map (p, ·) }).read
          (done.length + 1) = s₁ at hd
        have hslots : (processDestroy p { s with freed := s.freed ++ freed.map (p, ·) }).slots = s₁.slots := by
          rw [← hs₁]
          rfl
        rw [hslots]
        cases todo with
        | nil =>
          obtain ⟨hc, -⟩ := entries_eq_iff.mp hd.entries
          obtain ⟨fuel, rfl⟩ : ∃ f, fuel = f + 1 := ⟨fuel - 1, by omega⟩
          rw [List.append_nil] at hc
          exact ⟨s₁, structInitLoop_end (by omega), .of_dropped_last hd h1⟩
        | cons q rest =>
          -- the next process has moved to where the index has just been
          have hentries : s₁.entries = (done ++ [q]) ++ rest := by
            rw [List.append_assoc]
            exact hd.entries
          obtain ⟨-, hload⟩ := List.forall_mem_cons.mp hload
          obtain ⟨-, hok⟩ := List.forall_mem_cons.mp hok
          obtain ⟨s', h5, h6⟩ := ih hentries (by rw [List.append_assoc]; exact hmid.2)
            (fun x hx => by rw [hd.procs]; exact hload x hx) (fun x hx => by rw [hd.procs]; exact hok x hx)
            (by rw [List.length_cons] at hfuel; omega)
          rw [List.length_append, List.length_singleton] at h5
          exact ⟨s', h5, .of_dropped hd h1 h6⟩

/-! ### The whole initialisation -/

structure LoadedTable (ps : List Pid) (s : ProcessTable) : Prop where
  entries : s.entries = ps
  nodup : ps.Nodup
  length_le : ps.length ≤ processMaxCount
  loaded : ∀ p ∈ ps, (s.procs p).Loaded
  freed : s.freed = []
  reads : s.reads = []

/-- The table is as the initialisation should leave it: the processes that could be initialised, in their
order, each with all it needs and a `pid` of its own; the others freed once; nothing was read beyond
the array, and only initialised processes are registered. -/
structure TableOk (env : Pid → InitEnv) (ps : List Pid) (s s' : ProcessTable) : Prop where
  entries : s'.entries = ps.filter fun p => initOk (env p) (s.procs p)
  initialised : ∀ p ∈ s'.entries, (s'.procs p).Initialised
  pids : (s'.entries.map fun p => (s'.procs p).pid).Nodup
  freed : ∀ p ∈ ps, s'.freed.count (p, .process) = if initOk (env p) (s.procs p) then 0 else 1
  reads : ∀ r ∈ s'.reads, r < processMaxCount
  registered : ∀ c ∈ userProcessesRegister s', (s'.procs c.2).Initialised

theorem walk_of_dropLast_ok {l : List Pid} (h : ∀ p ∈ l.dropLast, ok p = true) :
    kept ok l = l.filter ok ∧ inited ok l = l.filter ok ∧ destroyed ok l = l.filter fun p => !ok p := by
  induction l with
  | nil => exact ⟨rfl, rfl, rfl⟩
  | cons p l ih =>
    cases l with
    | nil => by_cases hp : ok p = true <;> simp [kept, inited, destroyed, hp]
    | cons q rest =>
      rw [List.dropLast_cons_cons] at h
      obtain ⟨hp, hrest⟩ := List.forall_mem_cons.mp h
      obtain ⟨h1, h2, h3⟩ := ih hrest
      rw [kept_cons hp, inited_cons hp, destroyed_cons hp, h1, h2, h3, List.filter_cons_of_pos hp]
      refine ⟨rfl, rfl, (List.filter_cons_of_neg ?_).symm⟩
      simp [hp]

theorem dropLast_ok_of_kept {l : List Pid} (hnodup : l.Nodup) (h : ∀ p ∈ kept ok l, p ∈ inited ok l) :
    ∀ p ∈ l.dropLast, ok p = true := by
  induction l with
  | nil => simp
  | cons p l ih =>
    rw [List.nodup_cons] at hnodup
    cases l with
    | nil => simp
    | cons q rest =>
      by_cases hp : ok p = true
      · rw [kept_cons hp, inited_cons hp] at h
        rw [List.dropLast_cons_cons]
        refine List.forall_mem_cons.mpr ⟨hp, ih hnodup.2 fun x hx => ?_⟩
        rcases List.mem_cons.mp (h x (List.mem_cons_of_mem _ hx)) with rfl | hx'
        · exact absurd (kept_subset _ _ hx) hnodup.1
        · exact hx'
      · simp only [kept, inited, hp, Bool.false_eq_true, if_false] at h
        have hq := (inited_sublist ok rest).subset (h q List.mem_cons_self)
        exact absurd hq (List.nodup_cons.mp hnodup.2).1

/-- The initialisation returns, and the table is right exactly if there is an unused entry and only the last
process fails. -/
theorem userProcessesStructInit_ok_iff (env : Pid → InitEnv) (ps : List Pid) (s : ProcessTable)
    (h : LoadedTable ps s) :
    ∃ s', userProcessesStructInit env s = some s' ∧
      (TableOk env ps s s' ↔
        ps.length < processMaxCount ∧ ∀ p ∈ ps.dropLast, initOk (env p) (s.procs p) = true) := by
  obtain ⟨hc, -⟩ := entries_eq_iff.mp h.entries
  have hentries₀ : (s.read 0).entries = [] ++ ps := h.entries
  have hok₀ : ∀ p ∈ ps, (fun p => initOk (env p) (s.procs p)) p = initOk (env p) ((s.read 0).procs p) :=
    fun _ _ => rfl
  have hfuel : ps.length < s.count + 1 := by omega
  obtain ⟨s', h1, hw⟩ := structInitLoop_spec hentries₀ h.nodup h.loaded hok₀ hfuel
  refine ⟨s', h1, fun hok => ?_, fun ⟨hlen, hall⟩ => ?_⟩
  · have hall : ∀ p ∈ ps.dropLast, initOk (env p) (s.procs p) = true := by
      refine dropLast_ok_of_kept h.nodup fun p hp => ?_
      by_contra hni
      have hinit := (hok.initialised p (by rw [hw.entries]; exact hp)).kernelStack
      rw [hw.procs p hni] at hinit
      exact hinit (h.loaded p (kept_subset _ _ hp)).kernelStack
    refine ⟨Nat.lt_of_le_of_ne h.length_le fun heq => ?_, hall⟩
    have hne : ps ≠ [] := fun h0 => by simp [h0, processMaxCount] at heq
    have := hok.reads _ (hw.reads_end hall hne)
    simp only [List.length_nil] at this
    omega
  · obtain ⟨hk, hi, hd⟩ := walk_of_dropLast_ok hall
    have hentries : s'.entries = inited (fun p => initOk (env p) (s.procs p)) ps := by
      rw [hw.entries, hk, hi]
      rfl
    refine ⟨by rw [hentries, hi], fun p hp => (hw.inited p (hentries ▸ hp)).1, hentries ▸ hw.pids, fun p hp => ?_,
      fun r hr => ?_, fun c hc => ?_⟩
    · rw [hw.freed, hd, ProcessTable.read, h.freed]
      by_cases hp' : initOk (env p) (s.procs p) = true
      · rw [if_pos hp']
        simp [List.count_eq_zero, hp']
      · rw [if_neg hp', List.count_filter (by simp [hp']), List.count_eq_one_of_mem h.nodup hp]
        rfl
    · rcases hw.reads_le r hr with hr | hr
      · rw [ProcessTable.read, h.reads] at hr
        simp only [List.nil_append, List.mem_singleton] at hr
        subst hr
        decide
      · simp only [List.length_nil] at hr
        omega
    · obtain ⟨i, hi', rfl⟩ := List.mem_map.mp hc
      refine (hw.inited _ ?_).1
      rw [← hentries]
      exact List.mem_map_of_mem hi'

def plainImage : ProcessImage := ⟨0, 0, 0, [], 0, [], 0, [], 0, processImageStart⟩

def largeImage : ProcessImage :=
  { plainImage with argc := 128, envCount := 128, auxvCount := 128, stackSize := pageSize }

def twoProcesses (img₁ img₂ : ProcessImage) : ProcessTable where
  slots i := i + 1
  count := 2
  maxPid := 1
  procs p := ⟨if p = 1 then img₁ else img₂, ⟨0, 0, 0, 0, 0, 0, 1⟩, 0, 0, none, 0⟩
  freed := []
  reads := []

def richEnv (_ : Pid) : InitEnv := ⟨0x1000, 0x2000, 0x3000, by decide, 0, 0, 0, 0x4000⟩

theorem plainImage_checked : plainImage.Checked := ⟨by decide, by decide, by decide, by decide⟩

theorem largeImage_checked : largeImage.Checked := ⟨by decide, by decide, by decide, by decide⟩

theorem twoProcesses_loaded {img₁ img₂ : ProcessImage} (h₁ : img₁.Checked) (h₂ : img₂.Checked) :
    LoadedTable [1, 2] (twoProcesses img₁ img₂) where
  entries := rfl
  nodup := by decide
  length_le := by decide
  loaded := by
    intro p _
    refine ⟨?_, rfl, rfl⟩
    simp only [twoProcesses]
    split
    · exact h₁
    · exact h₂
  freed := rfl
  reads := rfl

/-- A process whose tables do not fit is no problem in the last place. -/
theorem largeImage_last_ok :
    ∃ s', userProcessesStructInit richEnv (twoProcesses plainImage largeImage) = some s' ∧
      TableOk richEnv [1, 2] (twoProcesses plainImage largeImage) s' := by
  obtain ⟨s', h1, h2⟩ := userProcessesStructInit_ok_iff richEnv [1, 2] (twoProcesses plainImage largeImage)
    (twoProcesses_loaded plainImage_checked largeImage_checked)
  exact ⟨s', h1, h2.mpr ⟨by decide, by decide⟩⟩

/-- In the first place it makes the loop leave out the second process, which stays in the table. -/
theorem largeImage_first_skips :
    LoadedTable [1, 2] (twoProcesses largeImage plainImage) ∧
      initOk (richEnv 2) ((twoProcesses largeImage plainImage).procs 2) = true ∧
      ∃ s', userProcessesStructInit richEnv (twoProcesses largeImage plainImage) = some s' ∧
        s'.entries = [2] ∧ (s'.procs 2).kernelStack = 0 ∧ userProcessesRegister s' = [(0, 2)] ∧
        ¬ TableOk richEnv [1, 2] (twoProcesses largeImage plainImage) s' := by
  refine ⟨twoProcesses_loaded largeImage_checked plainImage_checked, by decide, _, rfl, by decide, by decide, by decide,
    fun h => ?_⟩
  exact (h.initialised 2 (by decide)).kernelStack (by decide)

end QuestOS
