import QuestOS.Heap.Contract
import QuestOS.Heap.Safety
import QuestOS.Process.ElfChecks
import QuestOS.Process.Memory

/-!
# What a failed initialisation releases

`kmalloc` returns `NULL` for size 0 only, so neither an allocation nor a mapping fails in a way that the code
notices: what makes the initialisation of a process fail is an initial stack that does not fit.  The stack
is then freed at the page that its buffer was rounded up to, which `kmalloc` did not return.
-/

namespace QuestOS.ProcMem

open Bytes PageTable

variable {h h' : Heap} {s s' : VmState} {p : LoadedProcess} {err : Int}

/-! ### Mapping never fails -/

theorem tableAllocOne_ne_none {t : Option Nat} (hrun : tableAllocOne s = some (s', t)) : t ≠ none := by
  rw [tableAllocOne] at hrun
  split at hrun
  · cases hrun
  · next hk => exact absurd rfl (kmalloc_ne_null (by decide) hk)
  · split at hrun
    · cases hrun
    · rename_i s₁ ret hrec
      have hret : ret = 0 := by
        rw [mmRecordPgtable] at hrec
        split at hrec
        · cases hrec
        · next hk => exact absurd rfl (kmalloc_ne_null (by decide) hk)
        · exact (Prod.mk.inj (Option.some.inj hrec)).2.symm
      rw [if_neg (not_not.2 hret)] at hrun
      rw [← (Prod.mk.inj (Option.some.inj hrun)).2]
      exact Option.some_ne_none _

theorem tableAllocTrack_ne_none {prot : Entry} {entry : Nat} {t : Option Nat}
    (hrun : tableAllocTrack prot entry s = some (s', t)) : t ≠ none := by
  rw [tableAllocTrack] at hrun
  split at hrun
  · split at hrun
    · cases hrun
    · next hone => exact absurd rfl (tableAllocOne_ne_none hone)
    · rw [← (Prod.mk.inj (Option.some.inj hrun)).2]
      exact Option.some_ne_none _
  · rw [← (Prod.mk.inj (Option.some.inj hrun)).2]
    exact Option.some_ne_none _

def NeverFails (range : VmapRange) : Prop :=
  ∀ entry addr fin phys s s' err, range entry addr fin phys s = some (s', err) → err = 0

theorem neverFails_vmapPteRange (prot : Entry) : NeverFails (vmapPteRange prot) := by
  intro pmd addr fin phys s s' err hrun
  rw [vmapPteRange] at hrun
  split at hrun
  · cases hrun
  · next htrack => exact absurd rfl (tableAllocTrack_ne_none htrack)
  · obtain ⟨m, -, hm⟩ := Option.map_eq_some_iff.1 hrun
    exact (Prod.mk.inj hm).2.symm

theorem vmapTableLoop_err {k : Nat} {tryHuge : TryHuge} {range : VmapRange} (hrange : NeverFails range)
    {fin fuel entry addr phys : Nat} (hrun : vmapTableLoop k tryHuge range fin fuel entry addr phys s = some (s', err)) :
    err = 0 := by
  induction fuel generalizing entry addr phys s with
  | zero => cases hrun
  | succ fuel ih =>
    rw [vmapTableLoop] at hrun
    split at hrun
    · cases hrun
    · rename_i s₁ huge _
      split at hrun
      · cases hrun
      · rename_i s₂ err₁ hentry
        have herr : err₁ = 0 := by
          split at hentry
          · exact (Prod.mk.inj (Option.some.inj hentry)).2.symm
          · exact hrange _ _ _ _ _ _ _ hentry
        rw [if_neg (not_not.2 herr)] at hrun
        split at hrun
        · exact ih hrun
        · exact (Prod.mk.inj (Option.some.inj hrun)).2.symm

theorem neverFails_vmapTableRange (k : Nat) (tableProt : Entry) (freePage : FreePage) (prot : Entry) {range : VmapRange}
    (hrange : NeverFails range) : NeverFails (vmapTableRange k tableProt freePage prot range) := by
  intro entry addr fin phys s s' err hrun
  rw [vmapTableRange] at hrun
  split at hrun
  · cases hrun
  · next htrack => exact absurd rfl (tableAllocTrack_ne_none htrack)
  · exact vmapTableLoop_err hrange hrun

theorem vmapPhysRangeNoflush_err {pgDir phys virt size : Nat} {prot : Entry}
    (hrun : vmapPhysRangeNoflush pgDir phys virt size prot s = some (s', err)) : err = 0 :=
  vmapTableLoop_err (neverFails_vmapTableRange _ _ _ _ (neverFails_vmapTableRange _ _ _ _
    (neverFails_vmapPteRange prot))) hrun

theorem processMapMemory_err {pgDir phys virt size : Nat} {prot : Entry}
    (hrun : processMapMemory pgDir phys virt size prot s = some (s', err)) : err = 0 := by
  rw [processMapMemory] at hrun
  split at hrun
  · cases hrun
  · next hmap =>
    rw [if_pos (vmapPhysRangeNoflush_err hmap)] at hrun
    exact (Prod.mk.inj (Option.some.inj hrun)).2.symm

theorem processMapSegments_err {pgDir : Nat} {segs : List VmemSegment}
    (hrun : processMapSegments pgDir segs s = some (s', err)) : err = 0 := by
  induction segs generalizing s with
  | nil => exact (Prod.mk.inj (Option.some.inj hrun)).2.symm
  | cons seg segs ih =>
    rw [processMapSegments] at hrun
    split at hrun
    · cases hrun
    · next hmap =>
      rw [if_neg (not_not.2 (processMapMemory_err hmap))] at hrun
      exact ih hrun

theorem processMapAll_err {mm : MemoryStruct} (hrun : processMapAll p mm s = some (s', err)) : err = 0 := by
  rw [processMapAll] at hrun
  split at hrun
  · cases hrun
  · next hsegs =>
    rw [if_neg (not_not.2 (processMapSegments_err hsegs))] at hrun
    split at hrun
    · cases hrun
    · next hmeta =>
      rw [if_neg (not_not.2 (processMapMemory_err hmeta))] at hrun
      exact processMapMemory_err hrun

/-! ### What fails, and what is freed then -/

variable {res : Except (List Nat) UserProcess}

theorem processMemoryInit_ok (hrun : processMemoryInit p h = some (s, res)) :
    ∃ proc stack, res = .ok proc ∧ proc.image = p.user.image ∧ proc.mm.stack = alignUp stack pageSize ∧
      proc.mm.stackSize = chooseStackSize p.user.image.stackSize := by
  rw [processMemoryInit] at hrun
  dsimp only at hrun
  split at hrun
  · cases hrun
  · next hk => exact absurd rfl (kmalloc_ne_null (chooseStackSize_ne_zero _) hk)
  · rename_i h₁ stack hk₁
    split at hrun
    · cases hrun
    · next hk => exact absurd rfl (kmalloc_ne_null (by decide) hk)
    · split at hrun
      · cases hrun
      · next hk => exact absurd rfl (kmalloc_ne_null (by decide) hk)
      · split at hrun
        · cases hrun
        · next hmap =>
          rw [if_neg (not_not.2 (processMapAll_err hmap))] at hrun
          obtain ⟨-, rfl⟩ := Prod.mk.inj (Option.some.inj hrun)
          exact ⟨_, stack, rfl, rfl, rfl, rfl⟩

theorem processStackInit_error {mm : MemoryStruct} {img : ProcessImage} {m : Mem} {e : Int}
    (hrun : processStackInit mm img m = some (.error e)) : mm.stackSize < calculateStackMetaSize img := by
  rw [processStackInit] at hrun
  split at hrun
  · cases hrun
  · next hcheck =>
    rw [processStackCheck] at hcheck
    dsimp only at hcheck
    split at hcheck
    · cases hcheck
    · split at hcheck
      · assumption
      · cases hcheck
  · dsimp only at hrun
    split at hrun <;> cases hrun

theorem releaseMmResource_snd {mm : MemoryStruct} {q : Heap × List Nat} (hrun : releaseMmResource mm s = some q) :
    q.2 = [mm.heap, mm.stack] := by
  rw [releaseMmResource] at hrun
  obtain ⟨h, -, rfl⟩ := Option.map_eq_some_iff.1 hrun
  rfl

theorem destroyAfter_error {freed : List Nat}
    (hrun : destroyAfter p h freed = some (h', res)) : ∃ more, res = .error (freed ++ more) := by
  rw [destroyAfter] at hrun
  obtain ⟨q, -, hq⟩ := Option.map_eq_some_iff.1 hrun
  exact ⟨q.2, (Prod.mk.inj hq).2.symm⟩

/-- The initialisation succeeds when the initial stack fits; otherwise a page address is passed to `kfree`. -/
theorem initProcess_cases {maxPid : Nat}
    (hrun : initProcess maxPid p h = some (h', res)) :
    (calculateStackMetaSize p.user.image ≤ chooseStackSize p.user.image.stackSize ∧ ∃ proc, res = .ok proc) ∨
      (chooseStackSize p.user.image.stackSize < calculateStackMetaSize p.user.image ∧
        ∃ freed stack, res = .error freed ∧ alignUp stack pageSize ∈ freed) := by
  rw [initProcess] at hrun
  split at hrun
  · cases hrun
  · next hmem =>
    obtain ⟨_, _, hres, -⟩ := processMemoryInit_ok hmem
    cases hres
  · rename_i s₁ proc hmem
    obtain ⟨_, stack, hres, himg, hstack, hsize⟩ := processMemoryInit_ok hmem
    obtain rfl := Except.ok.inj hres
    split at hrun
    · cases hrun
    · next hinit =>
      have hlt := processStackInit_error hinit
      rw [himg, hsize] at hlt
      obtain ⟨q, hq, hdestroy⟩ := Option.bind_eq_some_iff.1 hrun
      obtain ⟨more, rfl⟩ := destroyAfter_error hdestroy
      refine .inr ⟨hlt, _, stack, rfl, List.mem_append_left _ ?_⟩
      rw [releaseMmResource_snd hq, ← hstack]
      exact List.mem_cons_of_mem _ List.mem_cons_self
    · next hinit =>
      obtain ⟨-, hused, hle⟩ := processStackCheck_ok (processStackInit_ok hinit)
      rw [hused, himg, hsize] at hle
      dsimp only at hrun
      split at hrun
      · cases hrun
      · next hk => exact absurd rfl (kmalloc_ne_null (by decide) hk)
      · obtain ⟨-, rfl⟩ := Prod.mk.inj (Option.some.inj hrun)
        exact .inl ⟨hle, _, rfl⟩

def Returned (ptr : Nat) : Prop := ∃ n zero h h', kmalloc n zero h = some (h', some ptr)

/-- Exactly the addresses `before` are reserved, and the pointers that were freed came from `kmalloc` and were
freed once. -/
structure ReleasedExactly (before : Nat → Prop) (h : Heap) (freed : List Nat) : Prop where
  reserved : ∀ x, h.mb.Reserved x ↔ before x
  returned : ∀ ptr ∈ freed, Returned ptr
  once : freed.Nodup

theorem not_returned_alignUp (stack : Nat) : ¬ Returned (alignUp stack pageSize) := by
  rintro ⟨n, zero, h, h', hk⟩
  have h1 := kmalloc_mod hk
  have h2 := alignUp_pageSize_mod stack
  omega

/-- A failed initialisation never releases exactly what was taken: the way out is right if and only if it is
not taken, that is, if the initial stack fits. -/
theorem failure_releases_iff {maxPid : Nat} {res : Except (List Nat) UserProcess} (before : Nat → Prop)
    (hrun : initProcess maxPid p h = some (h', res)) :
    (∀ freed, res = .error freed → ReleasedExactly before h' freed) ↔
      calculateStackMetaSize p.user.image ≤ chooseStackSize p.user.image.stackSize := by
  rcases initProcess_cases hrun with ⟨hle, proc, rfl⟩ | ⟨hlt, freed, stack, rfl, hmem⟩
  · exact iff_of_true (fun freed hres => by cases hres) hle
  · refine iff_of_false (fun hall => ?_) (by omega)
    exact not_returned_alignUp stack ((hall freed rfl).returned _ hmem)

/-! ### A package -/

def packageImage : KernelImage where
  start := 0x40000000
  fin := 0x40200000
  blob := 0x40100000
  blobSize := 0x3000
  start_le := by decide
  blob_mod := by decide
  fin_ge := by decide
  fin_le := by decide

def packageBytes : List UInt8 :=
  encodeFields [(4, procPkgMagic), (2, 1), (2, 32), (4, 1), (4, 32), (4, 56), (4, 0), (8, 0x3000)] ++
    encodeFields [(4, procImgElf), (4, 0), (8, 0x1000), (8, 0x1000), (8, 0x2000), (8, 0x1000), (8, 0), (8, 0)]

def packageHeap (phs : List ElfPhdr) (info : List UInt8) : Heap where
  mb := virtMemblock
  mem := write (write (write (fun _ => 0) 0x40100000 packageBytes) 0x40101000 (elfImage phs)) 0x40102000 info

def metaBytes (args vars aux : Nat) : List UInt8 :=
  encodeFields [(4, args), (4, vars), (4, aux), (4, 1), (4, 0), (4, 0x100), (4, 0x100), (4, 0x100), (4, 0xf00), (4, 0),
    (8, 4096)]

/-- What is left of loading the process and initialising it: whether that failed, what was freed, and whether
`x` is still reserved. -/
def loadAndInit (phs : List ElfPhdr) (info : List UInt8) (x : Nat) : Option (Bool × List Nat × Bool) :=
  match loadOneImage packageImage 0 (packageHeap phs info) with
  | some (h, .ok p) =>
    match initProcess 1 p h with
    | some (h', .error freed) => some (true, freed, (Regions.lookup h'.mb.reserved.regions x).isSome)
    | some (h', .ok _) => some (false, [], (Regions.lookup h'.mb.reserved.regions x).isSome)
    | none => none
  | _ => none

theorem loadAndInit_eq_some {phs : List ElfPhdr} {info : List UInt8} {x : Nat} {failed : Bool} {freed : List Nat} {left : Bool}
    (hrun : loadAndInit phs info x = some (failed, freed, left)) :
    ∃ h p h' res, loadOneImage packageImage 0 (packageHeap phs info) = some (h, .ok p) ∧
      initProcess 1 p h = some (h', res) ∧ (h'.mb.Reserved x ↔ left = true) ∧
      (failed = true → res = .error freed) := by
  unfold loadAndInit at hrun
  split at hrun
  · rename_i h p hload
    split at hrun
    · rename_i h' freed' hinit
      cases hrun
      exact ⟨h, p, h', _, hload, hinit, Iff.rfl, fun _ => rfl⟩
    · rename_i h' proc hinit
      cases hrun
      exact ⟨h, p, h', _, hload, hinit, Iff.rfl, nofun⟩
    · cases hrun
  · cases hrun

theorem failure_releases_noArgs : ∃ h p h' res, loadOneImage packageImage 0 (packageHeap onePage (metaBytes 0 0 0)) = some (h, .ok p) ∧
    initProcess 1 p h = some (h', res) ∧
    ((∀ freed, res = .error freed → ReleasedExactly virtMemblock.Reserved h' freed) ↔
      calculateStackMetaSize p.user.image ≤ chooseStackSize p.user.image.stackSize) := by
  obtain ⟨h, p, h', res, hload, hinit, -⟩ :=
    loadAndInit_eq_some (show loadAndInit onePage (metaBytes 0 0 0) 0 = some (false, [], false) by decide +kernel)
  exact ⟨h, p, h', res, hload, hinit, failure_releases_iff virtMemblock.Reserved hinit⟩

/-- With 128 arguments, variables and auxiliary entries a stack of one page is too small.  The page
directory stays reserved, and the stack is freed at a page address. -/
theorem manyArgs_not_released : ∃ h p h' freed,
    loadOneImage packageImage 0 (packageHeap onePage (metaBytes 128 128 128)) = some (h, .ok p) ∧
    initProcess 1 p h = some (h', .error freed) ∧ ¬ ReleasedExactly virtMemblock.Reserved h' freed := by
  obtain ⟨h, p, h', res, hload, hinit, hleft, hres⟩ :=
    loadAndInit_eq_some (show loadAndInit onePage (metaBytes 128 128 128) 0x4ffd9e40 =
      some (true, [0x4ffdbe90, 0x4fffc000, 0x4fffdf10, 0x4fffdfd0], true) by decide +kernel)
  rw [hres rfl] at hinit
  refine ⟨h, p, h', _, hload, hinit, fun hrel => ?_⟩
  have hbefore : ¬ virtMemblock.Reserved 0x4ffd9e40 := by
    unfold Memblock.Reserved
    decide +kernel
  exact hbefore ((hrel.reserved _).1 (hleft.2 rfl))

end QuestOS.ProcMem
