import QuestOS.Process.PackageSpace
import QuestOS.Smp.Invariant

/-!
# How a loaded process is dispatched

`run_process` tells a kernel thread from a user process by its name: a process whose name starts with
`idle` is taken for an idle thread and `kthread->entry` is called.  The name of a user process is
whatever the package says, copied by `load_user_meta`, and its `kthread` is the NULL of `kzalloc`.
Here a process is followed from its package over its registration to every `run_process`.
-/

namespace QuestOS

open Bytes ProcMem

variable {cfg : SmpConfig} {c d : CpuId} {m m' : Smp} {p : Pid}

/-! ### The end of `run_process` -/

/-- What `run_process` does last: a context switch with a page table, a call of `kthread->entry`, or
the access to a NULL pointer on the way there. -/
inductive Transfer
  | processCpuContextSwitch (proc : Pid) (ttbr0 : Nat)
  | kthreadEntry (entry : Nat)
  | nullPointer
  deriving DecidableEq, Repr

def runProcessTransfer (proc : Pid) (q : ProcessStruct) (pgDir : Nat) : Transfer :=
  if isIdleName q.name then
    match q.kthread with
    | none => .nullPointer
    | some kthread =>
      match kthread.entry with
      | none => .nullPointer
      | some entry => .kthreadEntry entry
  else .processCpuContextSwitch proc pgDir

theorem dispatchPhase_eq_transfer (proc : Pid) (q : ProcessStruct) (pgDir : Nat) :
    dispatchPhase proc q =
      match runProcessTransfer proc q pgDir with
      | .processCpuContextSwitch proc _ => .user proc
      | .kthreadEntry _ => .kthread proc
      | .nullPointer => .fault := by
  obtain ⟨name, state, kthread, lastWake, lastRun⟩ := q
  unfold dispatchPhase runProcessTransfer
  dsimp only
  split
  · rcases kthread with _ | ⟨_ | entry⟩ <;> rfl
  · rfl

/-- What a `run_process` of a process must do: switch to it with its own page table, and call a
kernel thread's entry only if there is one. -/
structure DispatchedByKind (proc : Pid) (q : ProcessStruct) (pgDir : Nat) : Prop where
  switched : runProcessTransfer proc q pgDir = .processCpuContextSwitch proc pgDir
  entry : isIdleName q.name = true → ∃ kthread entry, q.kthread = some kthread ∧ kthread.entry = some entry

theorem dispatchedByKind_iff {q : ProcessStruct} {pgDir : Nat} (hk : q.kthread = none) :
    DispatchedByKind p q pgDir ↔ isIdleName q.name = false := by
  constructor
  · intro h
    cases hname : isIdleName q.name with
    | false => rfl
    | true =>
      obtain ⟨kthread, -, hsome, -⟩ := h.entry hname
      cases hk.symm.trans hsome
  · intro hname
    refine ⟨?_, fun h => by cases hname.symm.trans h⟩
    rw [runProcessTransfer, hname]
    rfl

/-! ### The name in the package -/

def nameAddr (k : KernelImage) (mem : Mem) (desc : ImageDesc) : Nat :=
  let info := ImageMeta.load mem (k.blob + desc.metaOffset)
  k.blob + desc.metaOffset + info.stringTableOffset + info.nameOffset

def IdleAt (mem : Mem) (a : Nat) : Prop :=
  mem a = 105 ∧ mem (a + 1) = 100 ∧ mem (a + 2) = 108 ∧ mem (a + 3) = 101

instance (mem : Mem) (a : Nat) : Decidable (IdleAt mem a) := inferInstanceAs (Decidable (_ ∧ _))

theorem isIdleName_strscpy (mem : Mem) (a n : Nat) :
    isIdleName (strscpy mem a (n + 4)) = true ↔ IdleAt mem a := by
  have h1 : a + 1 + 1 = a + 2 := rfl
  have h2 : a + 2 + 1 = a + 3 := rfl
  simp only [isIdleName, strscpy, IdleAt, h1, h2]
  split_ifs with ha hb hc hd <;> simp_all

theorem loadOneImage_name {k : KernelImage} {index : Nat} {h h' : Heap} {proc : LoadedProcess}
    (hload : loadOneImage k index h = some (h', .ok proc)) :
    isIdleName proc.name = true ↔ IdleAt h'.mem (nameAddr k h'.mem (imageDescAt h.mem k.blob index)) := by
  unfold loadOneImage at hload
  dsimp only at hload
  split at hload
  · cases hload
  split at hload
  · cases hload
  split at hload
  · cases hload
  · cases hload
  rename_i h₁ proc₁ helf
  split at hload
  · simp only [Option.map_eq_some_iff, Prod.mk.injEq, reduceCtorEq, and_false, exists_false] at hload
  rename_i name image hmeta
  simp only [Option.some.injEq, Prod.mk.injEq, Except.ok.injEq] at hload
  obtain ⟨rfl, rfl⟩ := hload
  unfold loadUserMeta at hmeta
  dsimp only at hmeta
  split at hmeta
  · cases hmeta
  · cases hmeta
    exact isIdleName_strscpy _ _ 123

/-! ### From the registration to the dispatch -/

/-- No step writes the name or the kernel thread of a process that is not an idle thread. -/
theorem SmpInv.sameFields_step {l : CpuId × Act} (hm : SmpInv cfg m) (hp : ∀ e, p ≠ cfg.idle e)
    (h : m.step cfg l = some m') : SameFields ((m c).procs p) ((m' c).procs p) := by
  have hshared : ∀ d, (m c).procs = (m d).procs := fun d => (hm.shared c d).1
  cases Smp.step_move h with
  | @own d a x hact =>
    rw [Smp.put_procs, hshared d]
    exact ((hm.core d).ownStep hact).procs p
  | @register d q _ _ =>
    rw [Smp.put_procs, hshared d]
    by_cases hpq : p = q
    · subst hpq
      simp [SameFields, roundRobinLoadProcess]
    · simp [SameFields, roundRobinLoadProcess, hpq]
  | @bringup d _ =>
    rw [Smp.put_procs, hshared d]
    simp only [Smp.started, Core.loadInitTask, idleThreadCreate]
    rw [Function.update_of_ne (hp d)]
    exact ⟨rfl, rfl⟩

structure Dispatches (c : CpuId) (p : Pid) (st : Trans.Step Smp (CpuId × Act)) : Prop where
  label : ∃ ok cnt, st.label = (c, .next ok cnt)
  place : (st.pre c).place = .code (.kernel .schdulePick)
  pick : ∃ n, roundRobinPickNext (st.pre c).toCpu = some (some p, n)

/-- What the scheduler sees of a process when it is loaded: all but the name is the zero of
`kzalloc`. -/
def LoadedProcess.procStruct (proc : LoadedProcess) : ProcessStruct := ⟨proc.name, .new, none, none, 0⟩

def namedMeta (name : List UInt8) : List UInt8 :=
  encodeFields [(4, 0), (4, 0), (4, 0), (4, name.length + 1), (4, 0), (4, 48), (4, 48), (4, 48), (4, 48), (4, 0),
    (8, 4096)] ++ name ++ [0]

def loadNamed (name : List UInt8) : Option (List UInt8) :=
  match loadOneImage packageImage 0 (packageHeap onePage (namedMeta name)) with
  | some (_, .ok proc) => some proc.name
  | _ => none

theorem loadNamed_eq_some {name name' : List UInt8} (hload : loadNamed name = some name') :
    ∃ h proc, loadOneImage packageImage 0 (packageHeap onePage (namedMeta name)) = some (h, .ok proc) ∧
      proc.name = name' := by
  unfold loadNamed at hload
  split at hload
  · rename_i h proc hok
    cases hload
    exact ⟨h, proc, hok, rfl⟩
  · cases hload

def namedSmp (name : List UInt8) : Smp := fun c =>
  { bootSmp c with
    procs := fun p => if p < 4 then ⟨[105, 100, 108, 101, 48], .new, some ⟨none⟩, none, 0⟩
      else ⟨name, .new, none, none, 0⟩ }

theorem namedSmp_initial (name : List UInt8) : (namedSmp name).Initial smallConfig where
  fresh _ := ⟨rfl, rfl, rfl, rfl, rfl, rfl, rfl⟩
  shared _ _ := ⟨rfl, rfl⟩
  boot := rfl
  bootMasked := rfl
  bootCurrent := rfl
  off _ hc := if_neg hc

theorem namedSmp_run (name : List UInt8) (ls : List (CpuId × Act))
    {tr : List (Trans.Step Smp (CpuId × Act))} {m : Smp}
    (h : Trans.System.replay (Smp.step smallConfig) ls [] (namedSmp name) = some (tr, m)) :
    (smpSystem smallConfig).Run tr m :=
  .replay (fun _ _ _ h => h) (.nil (namedSmp_initial name)) h

def dispatchLabels : List (CpuId × Act) :=
  List.replicate 8 (0, .next true 0) ++ [(0, .bringup 1), (0, .bringup 2), (0, .bringup 3)] ++
    List.replicate 3 (0, .next true 0) ++ (0, .register 1 4) :: List.replicate 8 (1, .next true 0)

theorem roundRobinPickNext_single {c : Cpu} (hq : c.processes = [p]) (hn : c.nextProcess = 0)
    (hs : (c.procs p).state = .ready) : roundRobinPickNext c = some (some p, 0) := by
  simp [roundRobinPickNext, pickLoop, hq, hn, hs]

theorem dispatchLabels_dispatches (name : List UInt8) : ∃ run between start earlier m,
    (smpSystem smallConfig).Run ([] ++ run :: (between ++ start :: earlier)) m ∧
      (start.pre 1).procs 4 = ⟨name, .new, none, none, 0⟩ ∧ Dispatches 1 4 run ∧
      ((run.pre 1).procs 4).name = name ∧ ((run.pre 1).procs 4).kthread = none :=
  ⟨_, [_, _, _, _, _, _, _], _, _, _, namedSmp_run name dispatchLabels rfl, rfl,
    ⟨⟨true, 0, rfl⟩, rfl, ⟨0, roundRobinPickNext_single rfl rfl rfl⟩⟩, rfl, rfl⟩

end QuestOS
