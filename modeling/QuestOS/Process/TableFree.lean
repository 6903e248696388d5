import QuestOS.Mmu.VmapCall
import QuestOS.Process.Release

/-!
# Freeing page tables

Every table that `vmap_phys_range_noflush` allocates is recorded in `mm->pgtable_mem`, a list of `kmalloc`
pointers.  Tables are freed in two places: after a mapping that failed `process_map_memory` frees what the list
records, and before a block replaces a table `pmd_free_pte_page` and `pud_free_pmd_page` free what the entry
points to.  The first reads the head of the list again and again; the second passes the page address of a table
to `kfree`, which is never a pointer of `kmalloc`.  Here the pointers that are freed are logged.
-/

namespace QuestOS.ProcMem

open Bytes PageTable

/-! ### The records of a process -/

structure TableRecord where
  self : Nat
  virt : Nat

def RecordsAt (m : Mem) : (head : Nat) → List TableRecord → Prop
  | head, [] => head = 0
  | head, r :: rs =>
    head = r.self ∧ r.self ≠ 0 ∧ (load64 m r.self).toNat = r.virt ∧ RecordsAt m (load64 m (r.self + 8)).toNat rs

/-! ### After a mapping that failed -/

def failCleanUp : (fuel : Nat) → VmState → Option (VmState × List Nat)
  | 0, _ => none
  | fuel + 1, s =>
    let mem := s.pgtableMem
    if mem = 0 then some (s, [])
    else
      let tmp := mem
      -- `mem = mem->next` follows, but the next test assigns `mm->pgtable_mem` to `mem` again
      let virt := (load64 s.mem tmp).toNat
      match kfree virt s.heap with
      | none => none
      | some (h, _) =>
        match kfree tmp h with
        | none => none
        | some (h, _) => (failCleanUp fuel { s with heap := h }).map fun q => (q.1, virt :: tmp :: q.2)

/-- `process_map_memory`, for whatever `vmap_phys_range_noflush` does: the state, the error and the pointers
freed. -/
def processMapMemoryLog (vmap : VmState → Option (VmState × Int)) (fuel : Nat) (s : VmState) :
    Option (VmState × Int × List Nat) :=
  match vmap s with
  | none => none
  | some (s, err) =>
    if err = 0 then some (s, 0, []) else (failCleanUp fuel s).map fun q => (q.1, err, q.2)

variable {s s' : VmState} {fuel : Nat}

theorem failCleanUp_eq_none (h : s.pgtableMem ≠ 0) (fuel : Nat) : failCleanUp fuel s = none := by
  induction fuel generalizing s with
  | zero => rfl
  | succ fuel ih =>
    rw [failCleanUp]
    dsimp only
    rw [if_neg h]
    split
    · rfl
    · split
      · rfl
      · rename_i h₂ _ _
        rw [ih (s := { s with heap := h₂ }) h]
        rfl

theorem failCleanUp_empty (h : s.pgtableMem = 0) (fuel : Nat) : failCleanUp (fuel + 1) s = some (s, []) := by
  rw [failCleanUp]
  exact if_pos h

theorem processMapMemory_eq_some_iff {pgDir phys virt size : Nat} {prot : Entry} {err : Int} :
    processMapMemory pgDir phys virt size prot s = some (s', err) ↔
      ∃ fuel freed, processMapMemoryLog (vmapPhysRangeNoflush pgDir phys virt size prot) fuel s =
        some (s', err, freed) := by
  rw [processMapMemory]
  simp only [processMapMemoryLog]
  cases vmapPhysRangeNoflush pgDir phys virt size prot s with
  | none => simp
  | some q =>
    obtain ⟨s₁, err₁⟩ := q
    dsimp only
    by_cases herr : err₁ = 0
    · simp [herr]
    · rw [if_neg herr]
      simp only [if_neg herr]
      by_cases hlist : s₁.pgtableMem = 0
      · rw [if_pos hlist]
        constructor
        · intro h
          cases h
          exact ⟨1, [], by rw [failCleanUp_empty hlist]; rfl⟩
        · rintro ⟨fuel, freed, h⟩
          cases fuel with
          | zero => cases h
          | succ fuel =>
            rw [failCleanUp_empty hlist] at h
            cases h
            rfl
      · rw [if_neg hlist]
        refine iff_of_false (by simp) ?_
        rintro ⟨fuel, freed, h⟩
        rw [failCleanUp_eq_none hlist] at h
        cases h

/-- What the way out has to do with the records `rs`: it ends, frees every table and every record once, and
leaves an empty list, so that the next one frees nothing. -/
def CleansUp (vmap : VmState → Option (VmState × Int)) (rs : List TableRecord) (s : VmState) (err : Int) : Prop :=
  ∃ fuel s' freed, processMapMemoryLog vmap fuel s = some (s', err, freed) ∧
    freed.Perm (rs.flatMap fun r => [r.virt, r.self]) ∧ s'.pgtableMem = 0 ∧
    ∀ fuel, failCleanUp (fuel + 1) s' = some (s', [])

/-- After every mapping that failed, the way out does this iff nothing is recorded. -/
theorem cleansUp_iff (vmap : VmState → Option (VmState × Int)) {s₁ : VmState} {err : Int} {rs : List TableRecord}
    (hfail : vmap s = some (s₁, err)) (herr : err ≠ 0) (hrec : RecordsAt s₁.mem s₁.pgtableMem rs) :
    CleansUp vmap rs s err ↔ s₁.pgtableMem = 0 := by
  have hlog : ∀ fuel, processMapMemoryLog vmap fuel s = (failCleanUp fuel s₁).map fun q => (q.1, err, q.2) := by
    intro fuel
    rw [processMapMemoryLog, hfail]
    exact if_neg herr
  constructor
  · rintro ⟨fuel, s', freed, hrun, -⟩
    by_contra hlist
    rw [hlog, failCleanUp_eq_none hlist] at hrun
    cases hrun
  · intro hlist
    have hrs : rs = [] := by
      cases rs with
      | nil => rfl
      | cons r rs => exact absurd (hrec.1.symm.trans hlist) hrec.2.1
    refine ⟨1, s₁, [], ?_, by simp [hrs], hlist, fun fuel => failCleanUp_empty hlist fuel⟩
    rw [hlog, failCleanUp_empty hlist]
    rfl

/-- A mapping that fails with its first allocation. -/
theorem cleansUp_iff_noTable : CleansUp (fun s => some (s, negEnomem)) [] emptyKernel negEnomem :=
  have hrec : RecordsAt emptyKernel.mem emptyKernel.pgtableMem [] := rfl
  (cleansUp_iff (fun s => some (s, negEnomem)) rfl (by decide) hrec).mpr rfl

def secondAllocFails (s : VmState) : Option (VmState × Int) := (tableAllocOne s).map fun q => (q.1, negEnomem)

theorem secondAllocFails_emptyKernel : ∃ s₁ rs, secondAllocFails emptyKernel = some (s₁, negEnomem) ∧
    RecordsAt s₁.mem s₁.pgtableMem rs ∧ s₁.pgtableMem ≠ 0 := by
  have hrun : (tableAllocOne emptyKernel).map (fun q =>
      (q.1.pgtableMem, (load64 q.1.mem q.1.pgtableMem).toNat, (load64 q.1.mem (q.1.pgtableMem + 8)).toNat)) =
      some (1342168976, 1342169040, 0) := by decide +kernel
  obtain ⟨⟨s₁, t⟩, halloc, hq⟩ := Option.map_eq_some_iff.mp hrun
  simp only [Prod.mk.injEq] at hq
  obtain ⟨hhead, hvirt, hnext⟩ := hq
  have hne : s₁.pgtableMem ≠ 0 := by omega
  refine ⟨s₁, [⟨s₁.pgtableMem, 1342169040⟩], ?_, ⟨rfl, hne, hvirt, hnext⟩, hne⟩
  rw [secondAllocFails, halloc]
  rfl

/-- The loop frees this table and its record for ever. -/
theorem oneTable_never_cleaned : ¬ ∀ (vmap : VmState → Option (VmState × Int)) (s s₁ : VmState) (err : Int)
    (rs : List TableRecord), vmap s = some (s₁, err) → err ≠ 0 → RecordsAt s₁.mem s₁.pgtableMem rs →
    CleansUp vmap rs s err := by
  intro hall
  obtain ⟨s₁, rs, hfail, hrec, hlist⟩ := secondAllocFails_emptyKernel
  obtain ⟨fuel, s', freed, hrun, -⟩ := hall _ _ _ _ _ hfail (by decide) hrec
  simp only [processMapMemoryLog, hfail, failCleanUp_eq_none hlist] at hrun
  cases hrun

/-! ### Before a block replaces a table -/

def pmdFreePtePageLog (pmdp addr : Nat) (s : VmState) : Option (VmState × List Nat) :=
  let pmd := load64 s.mem pmdp
  if !isTable pmd then some (s, [])
  else
    let table := pteToPhys pmd + 8 * index 0 addr
    let s := s.setMem (store64 s.mem pmdp 0)
    (kfree table s.heap).map fun q => ({ s with heap := q.1 }, [table])

def pudFreePmdPageLog (pudp addr : Nat) (s : VmState) : Option (VmState × List Nat) :=
  let pud := load64 s.mem pudp
  if !isTable pud then some (s, [])
  else
    let table := pteToPhys pud + 8 * index 1 addr
    match (if ptePresent (load64 s.mem table) then pmdFreePtePageLog table addr s else some (s, [])) with
    | none => none
    | some (s, freed) =>
      let s := s.setMem (store64 s.mem pudp 0)
      (kfree table s.heap).map fun q => ({ s with heap := q.1 }, freed ++ [table])

def freePageLog (k : Nat) : Nat → Nat → VmState → Option (VmState × List Nat) :=
  if k = 1 then pmdFreePtePageLog else pudFreePmdPageLog

def vmapTryHugeLog (k : Nat) (prot : Entry) (entry addr fin phys : Nat) (s : VmState) :
    Option (VmState × Bool × List Nat) :=
  if sub64 fin addr ≠ span k ∨ addr % span k ≠ 0 ∨ phys % span k ≠ 0 then some (s, false, [])
  else
    (if ptePresent (load64 s.mem entry) then freePageLog k entry addr s else some (s, [])).map fun q =>
      ((setHuge entry phys prot q.1).1, (setHuge entry phys prot q.1).2, q.2)

variable {entry addr fin phys k : Nat} {prot : Entry} {freed : List Nat} {huge : Bool}

theorem pmdFreePtePageLog_fst (pmdp addr : Nat) (s : VmState) :
    (pmdFreePtePageLog pmdp addr s).map Prod.fst = pmdFreePtePage pmdp addr s := by
  rw [pmdFreePtePageLog, pmdFreePtePage]
  dsimp only
  split
  · rfl
  · rw [Option.map_map]
    rfl

theorem pudFreePmdPageLog_fst (pudp addr : Nat) (s : VmState) :
    (pudFreePmdPageLog pudp addr s).map Prod.fst = pudFreePmdPage pudp addr s := by
  rw [pudFreePmdPageLog, pudFreePmdPage]
  dsimp only
  split
  · rfl
  · have hfirst : (if ptePresent (load64 s.mem (pteToPhys (load64 s.mem pudp) + 8 * index 1 addr)) then
        pmdFreePtePage (pteToPhys (load64 s.mem pudp) + 8 * index 1 addr) addr s else some s) =
        (if ptePresent (load64 s.mem (pteToPhys (load64 s.mem pudp) + 8 * index 1 addr)) then
          pmdFreePtePageLog (pteToPhys (load64 s.mem pudp) + 8 * index 1 addr) addr s else some (s, [])).map
          Prod.fst := by
      split
      · rw [pmdFreePtePageLog_fst]
      · rfl
    rw [hfirst]
    generalize (if ptePresent (load64 s.mem (pteToPhys (load64 s.mem pudp) + 8 * index 1 addr)) then
      pmdFreePtePageLog (pteToPhys (load64 s.mem pudp) + 8 * index 1 addr) addr s else some (s, [])) = r
    cases r with
    | none => rfl
    | some q =>
      dsimp only [Option.map_some]
      rw [Option.map_map]
      rfl

theorem vmapTryHugeLog_fst (hk : k = 1 ∨ k = 2) :
    (vmapTryHugeLog k prot entry addr fin phys s).map (fun q => (q.1, q.2.1)) =
      vmapTryHuge k (if k = 1 then pmdFreePtePage else pudFreePmdPage) prot entry addr fin phys s := by
  have hfree : (freePageLog k entry addr s).map Prod.fst =
      (if k = 1 then pmdFreePtePage else pudFreePmdPage) entry addr s := by
    rcases hk with rfl | rfl
    · exact pmdFreePtePageLog_fst entry addr s
    · exact pudFreePmdPageLog_fst entry addr s
  rw [vmapTryHugeLog, vmapTryHuge]
  split
  · rfl
  · rw [Option.map_map]
    split
    · rw [← hfree, Option.map_map]
      rfl
    · rfl

def tablePage (ptr : Nat) : Nat := if ptr % 4096 = 0 then ptr else alignUp ptr 4096

def TableBelow (m : Mem) (k entry t : Nat) : Prop :=
  isTable (load64 m entry) = true ∧ Foot m (k - 1) (outAddr (load64 m entry)) t

/-- What freeing the tables below the entry means: each one is freed once and nothing else, by a pointer of
`kmalloc`, and none of them is still recorded afterwards. -/
structure FreesTables (k entry : Nat) (s s' : VmState) (freed : List Nat) : Prop where
  once : freed.Nodup
  tables : ∀ t, TableBelow s.mem k entry t ↔ ∃ ptr ∈ freed, tablePage ptr = t
  returned : ∀ ptr ∈ freed, Returned ptr
  unrecorded : ∀ rs, RecordsAt s'.mem s'.pgtableMem rs → ∀ r ∈ rs, ∀ ptr ∈ freed, tablePage r.virt ≠ tablePage ptr

theorem pteToPhys_mod (e : Entry) : pteToPhys e % 4096 = 0 := by
  rw [pteToPhys, BitVec.toNat_and, show (4096 : Nat) = 2 ^ 12 from rfl, Nat.and_mod_two_pow,
    show pteAddrLow.toNat % 2 ^ 12 = 0 by decide, Nat.and_zero]

theorem index_of_aligned {j : Nat} (h : addr % span (j + 1) = 0) : index j addr = 0 := by
  obtain ⟨c, rfl⟩ := Nat.dvd_of_mod_eq_zero h
  rw [index, span_succ, Nat.mul_comm 512, Nat.mul_assoc, Nat.mul_div_cancel_left _ (span_pos j),
    Nat.mul_mod_right]

theorem not_returned_of_mod {ptr : Nat} (h : ptr % 4096 = 0) : ¬ Returned ptr := by
  rintro ⟨n, zero, h₁, h₂, hk⟩
  have := kmalloc_mod hk
  omega

/-- If the entry is a table, its page address is among the pointers that are freed. -/
theorem freePageLog_table (hk : k = 1 ∨ k = 2) (haddr : addr % span k = 0)
    (htab : isTable (load64 s.mem entry) = true) (hrun : freePageLog k entry addr s = some (s', freed)) :
    pteToPhys (load64 s.mem entry) ∈ freed := by
  rcases hk with rfl | rfl
  · change pmdFreePtePageLog entry addr s = _ at hrun
    rw [pmdFreePtePageLog] at hrun
    simp only [htab, index_of_aligned haddr, Bool.not_true, Bool.false_eq_true, if_false, Nat.mul_zero,
      Nat.add_zero] at hrun
    obtain ⟨q, -, hq⟩ := Option.map_eq_some_iff.mp hrun
    rw [← (Prod.mk.inj hq).2]
    exact List.mem_singleton.mpr rfl
  · change pudFreePmdPageLog entry addr s = _ at hrun
    rw [pudFreePmdPageLog] at hrun
    simp only [htab, index_of_aligned haddr, Bool.not_true, Bool.false_eq_true, if_false, Nat.mul_zero,
      Nat.add_zero] at hrun
    split at hrun
    · cases hrun
    · obtain ⟨q, -, hq⟩ := Option.map_eq_some_iff.mp hrun
      rw [← (Prod.mk.inj hq).2]
      exact List.mem_append_right _ (List.mem_singleton.mpr rfl)

theorem freePageLog_not_table (htab : isTable (load64 s.mem entry) = false) :
    freePageLog k entry addr s = some (s, []) := by
  unfold freePageLog
  split
  · rw [pmdFreePtePageLog]
    dsimp only
    rw [htab]
    rfl
  · rw [pudFreePmdPageLog]
    dsimp only
    rw [htab]
    rfl

theorem vmapTryHugeLog_block (hrun : vmapTryHugeLog k prot entry addr fin phys s = some (s', true, freed)) :
    addr % span k = 0 ∧ ∃ s₁, (if ptePresent (load64 s.mem entry) then freePageLog k entry addr s else some (s, [])) =
      some (s₁, freed) := by
  rw [vmapTryHugeLog] at hrun
  split at hrun
  · cases hrun
  · rename_i halign
    obtain ⟨⟨s₁, freed₁⟩, hfree, hq⟩ := Option.map_eq_some_iff.mp hrun
    obtain ⟨-, hrest⟩ := Prod.mk.inj hq
    obtain ⟨-, rfl⟩ := Prod.mk.inj hrest
    refine ⟨?_, s₁, hfree⟩
    by_contra hne
    exact halign (.inr (.inl hne))

theorem not_freesTables_of_table (hk : k = 1 ∨ k = 2) (htab : isTable (load64 s.mem entry) = true)
    (hrun : vmapTryHugeLog k prot entry addr fin phys s = some (s', true, freed)) :
    ¬ FreesTables k entry s s' freed := by
  intro hok
  obtain ⟨haddr, s₁, hfree⟩ := vmapTryHugeLog_block hrun
  have hpresent : ptePresent (load64 s.mem entry) = true := by
    simp only [isTable, Bool.and_eq_true] at htab
    simp [ptePresent, isValid, htab.1]
  rw [if_pos hpresent] at hfree
  have hmem := freePageLog_table hk haddr htab hfree
  exact not_returned_of_mod (pteToPhys_mod _) (hok.returned _ hmem)

/-- Whenever a range becomes a block, the tables below the entry are freed as they should be iff the entry was
not a table. -/
theorem block_frees_tables_iff (hk : k = 1 ∨ k = 2)
    (hrun : vmapTryHugeLog k prot entry addr fin phys s = some (s', true, freed)) :
    FreesTables k entry s s' freed ↔ isTable (load64 s.mem entry) = false := by
  cases htab : isTable (load64 s.mem entry) with
  | true => exact iff_of_false (not_freesTables_of_table hk htab hrun) (by simp)
  | false =>
    obtain ⟨-, s₁, hfree⟩ := vmapTryHugeLog_block hrun
    have hnil : freed = [] := by
      split at hfree
      · rw [freePageLog_not_table htab] at hfree
        cases hfree
        rfl
      · cases hfree
        rfl
    refine iff_of_true ?_ rfl
    subst hnil
    refine ⟨List.nodup_nil, fun t => ?_, by simp, by simp⟩
    simp [TableBelow, htab]

/-- A block in a table that was empty. -/
theorem block_frees_tables_iff_empty : ∃ s', vmapTryHugeLog 1 pageKernel 0x40001000 0x40000000 0x40200000 0x44000000
      emptyKernel = some (s', true, []) ∧ FreesTables 1 0x40001000 emptyKernel s' [] := by
  have hrun : (vmapTryHugeLog 1 pageKernel 0x40001000 0x40000000 0x40200000 0x44000000 emptyKernel).map Prod.snd =
      some (true, []) := by decide +kernel
  obtain ⟨⟨s', q⟩, hlog, hq⟩ := Option.map_eq_some_iff.mp hrun
  obtain rfl : q = (true, []) := hq
  exact ⟨s', hlog, (block_frees_tables_iff (.inl rfl) hlog).mpr (by decide)⟩

inductive BuiltByVmap (pgDir : Nat) : VmState → Prop
  | empty {s : VmState} : s.Ok → s.pgtableMem = 0 → (∀ x, pageOf x = pgDir → s.mem x = 0) → BuiltByVmap pgDir s
  | vmap {s s' : VmState} {phys virt size : Nat} {prot : Entry} : BuiltByVmap pgDir s →
      vmapPhysRangeNoflush pgDir phys virt size prot s = some (s', 0) → BuiltByVmap pgDir s'

def entryAt (m : Mem) (k addr : Nat) : Nat → Nat → Option Nat
  | 0, table => some (table + 8 * index k addr)
  | n + 1, table =>
    let e := slot m table (index (k + n + 1) addr)
    if isTable e then entryAt m k addr n (outAddr e) else none

/-- One page is mapped, then the block that covers it: the page's table is freed at its own address, which
`kmalloc` did not return. -/
theorem page_table_freed_unreturned : ¬ ∀ (pgDir k n entry addr fin phys : Nat) (prot : Entry) (s s' : VmState)
    (freed : List Nat), BuiltByVmap pgDir s → k = 1 ∨ k = 2 → k + n = 3 → entryAt s.mem k addr n pgDir = some entry →
    vmapTryHugeLog k prot entry addr fin phys s = some (s', true, freed) → FreesTables k entry s s' freed := by
  intro hall
  -- 0x4fffc000 is the second level table that the mapping of the page allocates
  have hrun : ((firstImagePage.run 0x40000000 emptyKernel).bind fun q =>
      (vmapTryHugeLog 1 pageKernel 0x4fffc000 0x40000000 0x40200000 0x44000000 q.1).map fun r =>
        (q.2, entryAt q.1.mem 1 0x40000000 2 0x40000000, isTable (load64 q.1.mem 0x4fffc000), r.2.1)) =
      some (0, some 0x4fffc000, true, true) := by decide +kernel
  obtain ⟨⟨s, err⟩, hmap, hrun⟩ := Option.bind_eq_some_iff.mp hrun
  obtain ⟨⟨s', block, freed⟩, hblock, hq⟩ := Option.map_eq_some_iff.mp hrun
  simp only [Prod.mk.injEq] at hq
  obtain ⟨rfl, hentry, htab, rfl⟩ := hq
  have hbuilt : BuiltByVmap 0x40000000 s := .vmap (.empty emptyKernel_ok rfl fun _ _ => rfl) hmap
  exact not_freesTables_of_table (.inl rfl) htab hblock
    (hall _ _ _ _ _ _ _ _ _ _ _ hbuilt (.inl rfl) rfl hentry hblock)

end QuestOS.ProcMem
