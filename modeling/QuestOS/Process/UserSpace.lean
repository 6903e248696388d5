import QuestOS.Mmu.AddressSpace
import QuestOS.Process.Memory

/-!
# The address space of a process

`process_memory_init` maps the segments, the meta blob and the stack, one call of `process_map_memory` after
the other.  If no two of them touch the same page then the tables translate exactly the pages of these calls,
each to where it was asked for (`processMemoryInit_space`), and nothing was written but memory taken from the
allocator.
-/

namespace QuestOS.ProcMem

open Bytes PageTable

structure Mapping where
  phys : Nat
  virt : Nat
  size : Nat
  prot : Entry

namespace Mapping

def va (w : Mapping) : Nat := w.virt / 4096 * 4096

def vaEnd (w : Mapping) : Nat := mapEnd w.va (w.virt % 4096) (w.virt + w.size)

def pa (w : Mapping) : Nat := w.phys / 4096 * 4096

def Covers (w : Mapping) (x : Nat) : Prop := w.va ≤ x ∧ x < w.vaEnd

instance (w : Mapping) (x : Nat) : Decidable (w.Covers x) := inferInstanceAs (Decidable (_ ∧ _))

def leaf (w : Mapping) (x : Nat) : Leaf := norm ⟨w.pa + (x - w.va), protAttr w.prot⟩

def Apart (a b : Mapping) : Prop := ∀ x, a.Covers x → ¬ b.Covers x

/-- A range below the first top-level entry, at the same offset in a page as its physical address, with the
attributes of a user page. -/
structure Valid (w : Mapping) : Prop where
  congr : w.phys % 4096 = w.virt % 4096
  pos : 0 < w.virt
  fin_lt : w.virt + w.size < 2 ^ 39
  phys_le : w.pa + (w.vaEnd - w.va) ≤ 2 ^ 48
  page : PageProt w.prot
  user : UserAttr (protAttr w.prot)

variable {w : Mapping}

theorem va_le (w : Mapping) : w.va ≤ w.virt := Nat.div_mul_le_self _ _

theorem va_add (w : Mapping) : w.va + w.virt % 4096 = w.virt := by
  unfold va
  omega

theorem va_mod (w : Mapping) : w.va % 4096 = 0 := Nat.mul_mod_left _ _

theorem va_lt_vaEnd (w : Mapping) : w.va < w.vaEnd := by
  have h1 := w.va_add
  have h2 := lt_spanEnd 1 w.va
  unfold vaEnd mapEnd
  split <;> omega

theorem vaEnd_le (w : Mapping) : w.vaEnd ≤ (w.virt + w.size + 4095) / 4096 * 4096 ∨ w.size = 0 ∧ w.vaEnd = w.va + 4096 := by
  have h1 := w.va_add
  have h2 := w.va_mod
  unfold vaEnd mapEnd
  split
  · omega
  · exact .inl (Nat.le_refl _)

theorem Valid.clean (h : w.Valid) : w.prot.getLsbD 51 = true → w.prot.getLsbD 7 = true → w.prot.getLsbD 55 = false := by
  have hbit : ∀ i < 64, 2 ≤ i → (protAttr w.prot).getLsbD i = w.prot.getLsbD i := by
    intro i hi h2
    rw [protAttr, BitVec.getLsbD_and, BitVec.getLsbD_not, type_bit i hi, decide_eq_true hi, decide_eq_false (by omega)]
    exact Bool.and_true _
  intro h51 h7
  have huser := h.user.2
  rw [hbit 7 (by decide) (by decide), hbit 51 (by decide) (by decide), h51, h7] at huser
  cases huser

def request (w : Mapping) (h : w.Valid) : VmapRequest where
  phys := w.pa
  va := w.va
  off := w.virt % 4096
  fin := w.virt + w.size
  prot := w.prot
  phys_mod := Nat.mul_mod_left _ _
  va_mod := w.va_mod
  off_lt := Nat.mod_lt _ (by decide)
  start_le := by rw [w.va_add]; exact Nat.le_add_right _ _
  fin_pos := by have := h.pos; omega
  va_lt := by have := h.fin_lt; have := w.va_le; omega
  fin_le := by have := h.fin_lt; omega
  phys_le := h.phys_le
  page := h.page
  clean := h.clean

end Mapping

variable {s₀ s s' : VmState} {root : Nat} {f : Nat → Option Leaf} {err : Int} {w : Mapping}

theorem map_memory (h : AddressSpace s₀ s root f) (hw : w.Valid) (hfree : ∀ x, w.Covers x → f x = none)
    (hrun : processMapMemory root w.phys w.virt w.size w.prot s = some (s', err)) :
    err = 0 ∧ AddressSpace s₀ s' root fun x => if w.Covers x then some (w.leaf x) else f x := by
  have hphys : (w.request hw).phys + (w.request hw).off = w.phys := by
    have := hw.congr
    change w.phys / 4096 * 4096 + w.virt % 4096 = w.phys
    omega
  have hvirt : (w.request hw).va + (w.request hw).off = w.virt := w.va_add
  have hsize : (w.request hw).fin - ((w.request hw).va + (w.request hw).off) = w.size := by
    rw [hvirt]
    exact Nat.add_sub_cancel_left _ _
  have hidx : index 3 (w.request hw).va = 0 := by
    have h1 := hw.fin_lt
    have h2 := w.va_le
    change w.va / 2 ^ 39 % 512 = 0
    rw [Nat.div_eq_of_lt (by omega)]
  rw [processMapMemory] at hrun
  split at hrun
  · cases hrun
  · next s₁ err₁ hmap =>
    rw [← hphys, ← hvirt, ← hsize] at hmap
    obtain ⟨rfl, hspace⟩ := h.map hidx hw.user (fun x h1 h2 => hfree x ⟨h1, h2⟩) hmap
    rw [if_pos rfl] at hrun
    obtain ⟨rfl, rfl⟩ := Prod.mk.inj (Option.some.inj hrun)
    exact ⟨rfl, hspace⟩

/-! ### One call after the other -/

def spaceOf : List Mapping → Nat → Option Leaf
  | [], _ => none
  | w :: ws, x => if w.Covers x then some (w.leaf x) else spaceOf ws x

theorem spaceOf_eq_none {ws : List Mapping} {x : Nat} (h : ∀ w ∈ ws, ¬ w.Covers x) : spaceOf ws x = none := by
  induction ws with
  | nil => rfl
  | cons w ws ih =>
    rw [List.forall_mem_cons] at h
    rw [spaceOf, if_neg h.1, ih h.2]

theorem spaceOf_concat {ws : List Mapping} {w : Mapping} {x : Nat} (hfree : w.Covers x → ∀ v ∈ ws, ¬ v.Covers x) :
    spaceOf (ws ++ [w]) x = if w.Covers x then some (w.leaf x) else spaceOf ws x := by
  induction ws with
  | nil => rfl
  | cons v ws ih =>
    rw [List.cons_append, spaceOf, spaceOf, ih fun hx u hu => hfree hx u (List.mem_cons_of_mem v hu)]
    by_cases hv : v.Covers x
    · have hw : ¬ w.Covers x := fun hx => hfree hx v List.mem_cons_self hv
      rw [if_pos hv, if_neg hw, if_pos hv]
    · rw [if_neg hv, if_neg hv]

def AllApart (ws : List Mapping) : Prop := ws.Pairwise Mapping.Apart

theorem spaceOf_eq_some {ws : List Mapping} (hapart : AllApart ws) {x : Nat} {l : Leaf} :
    spaceOf ws x = some l ↔ ∃ w ∈ ws, w.Covers x ∧ l = w.leaf x := by
  induction ws with
  | nil => exact iff_of_false nofun nofun
  | cons v ws ih =>
    obtain ⟨hv, hrest⟩ := List.pairwise_cons.mp hapart
    rw [spaceOf, List.exists_mem_cons_iff]
    by_cases hx : v.Covers x
    · rw [if_pos hx]
      constructor
      · intro hl
        exact .inl ⟨hx, (Option.some.inj hl).symm⟩
      · rintro (⟨-, rfl⟩ | ⟨w, hw, hwx, -⟩)
        · rfl
        · exact absurd hwx (hv w hw x hx)
    · rw [if_neg hx, ih hrest]
      exact ⟨.inr, fun h => h.resolve_left fun h => hx h.1⟩

def processMapList (pgDir : Nat) : List Mapping → VmState → Option (VmState × Int)
  | [], s => some (s, 0)
  | w :: ws, s =>
    match processMapMemory pgDir w.phys w.virt w.size w.prot s with
    | none => none
    | some (s, err) => if err ≠ 0 then some (s, err) else processMapList pgDir ws s

theorem processMapList_space {done ws : List Mapping} (h : AddressSpace s₀ s root (spaceOf done)) (hvalid : ∀ w ∈ ws, w.Valid)
    (hapart : AllApart (done ++ ws)) (hrun : processMapList root ws s = some (s', err)) :
    err = 0 ∧ AddressSpace s₀ s' root (spaceOf (done ++ ws)) := by
  induction ws generalizing done s with
  | nil =>
    obtain ⟨rfl, rfl⟩ := Prod.mk.inj (Option.some.inj hrun)
    rw [List.append_nil]
    exact ⟨rfl, h⟩
  | cons w ws ih =>
    rw [List.forall_mem_cons] at hvalid
    rw [processMapList] at hrun
    split at hrun
    · cases hrun
    · next s₁ err₁ hmap =>
      have hdone : ∀ x, w.Covers x → ∀ v ∈ done, ¬ v.Covers x := fun x hx v hv hvx =>
        (List.pairwise_append.mp hapart).2.2 v hv w List.mem_cons_self x hvx hx
      obtain ⟨rfl, hspace⟩ := map_memory h hvalid.1 (fun x hx => spaceOf_eq_none (hdone x hx)) hmap
      rw [if_neg (not_not.mpr rfl)] at hrun
      have hnext : AddressSpace s₀ s₁ root (spaceOf (done ++ [w])) := by
        rwa [show spaceOf (done ++ [w]) = _ from funext fun x => spaceOf_concat (hdone x)]
      rw [List.append_cons] at hapart ⊢
      exact ih hnext hvalid.2 hapart hrun

/-! ### The mappings of a process -/

def segmentMapping (seg : VmemSegment) : Mapping :=
  ⟨seg.pa, seg.vaStart, sub64 seg.vaEnd seg.vaStart, processGetSegmentPgprot seg.flags⟩

def metaMapping (img : ProcessImage) : Mapping := ⟨img.metaData, processMetaStart, alignUp img.metaSize pageSize, pgprotUserRw⟩

def stackMapping (mm : MemoryStruct) : Mapping := ⟨mm.stack, processStackTop - mm.stackSize, mm.stackSize, pgprotUserRw⟩

def mappings (p : LoadedProcess) (mm : MemoryStruct) : List Mapping :=
  p.segments.map segmentMapping ++ [metaMapping p.user.image, stackMapping mm]

theorem processMapSegments_eq (pgDir : Nat) (segs : List VmemSegment) (s : VmState) :
    processMapSegments pgDir segs s = processMapList pgDir (segs.map segmentMapping) s := by
  induction segs generalizing s with
  | nil => rfl
  | cons seg segs ih =>
    simp only [processMapSegments, List.map_cons, processMapList, ih]
    rfl

theorem processMapList_append (pgDir : Nat) (ws ws' : List Mapping) (s : VmState) :
    processMapList pgDir (ws ++ ws') s = match processMapList pgDir ws s with
      | none => none
      | some (s, err) => if err ≠ 0 then some (s, err) else processMapList pgDir ws' s := by
  induction ws generalizing s with
  | nil => simp only [List.nil_append, processMapList, ne_eq, not_true_eq_false, if_false]
  | cons w ws ih =>
    simp only [List.cons_append, processMapList, ih]
    split
    · rfl
    · split
      · next herr => simp only [if_pos herr]
      · rfl

theorem processMapList_singleton (pgDir : Nat) (w : Mapping) (s : VmState) :
    processMapList pgDir [w] s = processMapMemory pgDir w.phys w.virt w.size w.prot s := by
  rw [processMapList]
  split
  · next hmap => exact hmap.symm
  · next s₁ err hmap =>
    rw [hmap]
    split
    · rfl
    · next herr => rw [processMapList, not_not.mp herr]

theorem processMapAll_eq (p : LoadedProcess) (mm : MemoryStruct) (s : VmState) :
    processMapAll p mm s = processMapList mm.pgDir (mappings p mm) s := by
  rw [mappings, processMapList_append, ← processMapSegments_eq, processMapAll]
  cases processMapSegments mm.pgDir p.segments s with
  | none => rfl
  | some q =>
    dsimp only
    split
    · rfl
    have hmeta : processMapMeta mm.pgDir p.user.image q.1 = processMapMemory mm.pgDir (metaMapping p.user.image).phys
        (metaMapping p.user.image).virt (metaMapping p.user.image).size (metaMapping p.user.image).prot q.1 := rfl
    rw [processMapList, hmeta]
    cases processMapMemory mm.pgDir (metaMapping p.user.image).phys (metaMapping p.user.image).virt
      (metaMapping p.user.image).size (metaMapping p.user.image).prot q.1 with
    | none => rfl
    | some q =>
      dsimp only
      rw [processMapList_singleton]
      rfl

/-! ### `process_memory_init` -/

variable {n pa : Nat} {h h' : Heap} {p : LoadedProcess} {proc : UserProcess}

structure PagesOf (n c : Nat) (s s' : VmState) : Prop where
  aligned : c % 4096 = 0
  taken : ∀ x, c ≤ x → x < c + n → s.Taken s' x

/-- A buffer of twice the size has room for the pages from its first page border on. -/
theorem alignUp_buffer (hk : Kmalloced n true pa h h') (hpos : 4096 ≤ n) (hlt : n < 2 ^ 31) :
    PagesOf n (alignUp (pa + mallocHeaderSize) pageSize) ⟨h, 0⟩ ⟨h', 0⟩ ∧
      ∀ x, alignUp (pa + mallocHeaderSize) pageSize ≤ x → x < alignUp (pa + mallocHeaderSize) pageSize + n → h'.mem x = 0 := by
  have hbuf := (kmallocBufSize_spec (by omega) hlt).1
  have hmax := hk.alloc.free.le_max
  have h16 : mallocHeaderSize = 16 := rfl
  have hc : alignUp (pa + mallocHeaderSize) pageSize % 4096 = 0 ∧ pa + 16 ≤ alignUp (pa + mallocHeaderSize) pageSize ∧
      alignUp (pa + mallocHeaderSize) pageSize < pa + 16 + 4096 := by
    rw [show pageSize = 2 ^ 12 from rfl, alignUp_eq]
    simp only [physAddrMax] at hmax
    omega
  generalize alignUp (pa + mallocHeaderSize) pageSize = c at hc ⊢
  refine ⟨⟨hc.1, fun x h1 h2 => ⟨hk.loose (by omega) (by omega), hk.held (by omega) (by omega)⟩⟩, fun x h1 h2 => ?_⟩
  exact hk.zeroed rfl x (by omega) (by omega)

theorem unchanged_of_kmalloced {zero : Bool} (hk : Kmalloced n zero pa h h') {x : Nat}
    (hx : ¬ VmState.Taken ⟨h, 0⟩ ⟨h', 0⟩ x) : h'.mem x = h.mem x :=
  hk.frame x fun h1 => hx ⟨hk.loose h1.1 h1.2, hk.held h1.1 h1.2⟩

theorem chooseStackSize_spec {n : Nat} (hn : n % pageSize = 0) :
    chooseStackSize n % 4096 = 0 ∧ 4096 ≤ chooseStackSize n ∧ chooseStackSize n ≤ 65536 := by
  have hmax : processMaxStackSize = 65536 := rfl
  have hdef : processDefaultStackSize = 8192 := rfl
  change n % 4096 = 0 at hn
  unfold chooseStackSize
  split
  · omega
  · split <;> omega

theorem processMemoryInit_cases (hok : (⟨h, 0⟩ : VmState).Ok) (hrun : processMemoryInit p h = some (s, .ok proc)) :
    ∃ h₁ h₂ h₃ stack heap pgDir, Kmalloced (chooseStackSize p.user.image.stackSize) true stack h h₁ ∧
      Kmalloced processDefaultHeapSize true heap h₁ h₂ ∧ Kmalloced pageSize true pgDir h₂ h₃ ∧
      proc.image = p.user.image ∧ proc.mm.stackSize = chooseStackSize p.user.image.stackSize ∧
      proc.mm.stack = alignUp (stack + mallocHeaderSize) pageSize ∧ proc.mm.pgDir = alignUp (pgDir + mallocHeaderSize) pageSize ∧
      ∃ err, processMapAll p proc.mm ⟨h₃, 0⟩ = some (s, err) := by
  rw [processMemoryInit] at hrun
  dsimp only at hrun
  rcases hok.kmalloc_cases (chooseStackSize_ne_zero p.user.image.stackSize) true with hk₁ | ⟨h₁, stack, hk₁, hs₁⟩
  · simp only [hk₁] at hrun
    cases hrun
  have hok₁ : (⟨h₁, 0⟩ : VmState).Ok := (hs₁.grows hok).ok
  simp only [hk₁] at hrun
  rcases hok₁.kmalloc_cases (n := processDefaultHeapSize) (by decide) true with hk₂ | ⟨h₂, heap, hk₂, hs₂⟩
  · simp only [hk₂] at hrun
    cases hrun
  have hok₂ : (⟨h₂, 0⟩ : VmState).Ok := (hs₂.grows hok₁).ok
  simp only [hk₂] at hrun
  rcases hok₂.kmalloc_cases (n := pageSize) (by decide) true with hk₃ | ⟨h₃, pgDir, hk₃, hs₃⟩
  · simp only [hk₃] at hrun
    cases hrun
  simp only [hk₃] at hrun
  split at hrun
  · cases hrun
  · next s₁ err hmap =>
    split at hrun
    · obtain ⟨_, -, hq⟩ := Option.map_eq_some_iff.mp hrun
      cases (Prod.mk.inj hq).2
    · obtain ⟨rfl, hproc⟩ := Prod.mk.inj (Option.some.inj hrun)
      obtain rfl := Except.ok.inj hproc
      exact ⟨h₁, h₂, h₃, stack, heap, pgDir, hs₁, hs₂, hs₃, rfl, rfl, rfl, rfl, err, hmap⟩

theorem Mapping.vaEnd_of_pages (hvirt : w.virt % 4096 = 0) (hsize : w.size % 4096 = 0) (hpos : 0 < w.size) :
    w.va = w.virt ∧ w.vaEnd = w.virt + w.size := by
  have hva : w.va = w.virt := by
    unfold Mapping.va
    omega
  refine ⟨hva, ?_⟩
  rw [Mapping.vaEnd, hva, hvirt, mapEnd_pages hvirt (by omega) (by omega)]

theorem pageProt_userRw : PageProt pgprotUserRw := ⟨by unfold NoAddr; decide, by decide⟩

theorem userAttr_userRw : UserAttr (protAttr pgprotUserRw) := by unfold UserAttr; decide

theorem stackMapping_valid {mm : MemoryStruct} {s s' : VmState} (hok : s.Ok) (hmod : mm.stackSize % 4096 = 0) (hge : 4096 ≤ mm.stackSize)
    (hle : mm.stackSize ≤ processMaxStackSize) (hpages : PagesOf mm.stackSize mm.stack s s') : (stackMapping mm).Valid := by
  have htop : processStackTop = 0x41C0000000 := by decide
  have hmax : processMaxStackSize = 65536 := rfl
  have hvirt : (stackMapping mm).virt = 0x41C0000000 - mm.stackSize := by rw [← htop]; rfl
  have hsize : (stackMapping mm).size = mm.stackSize := rfl
  obtain ⟨hva, hend⟩ := Mapping.vaEnd_of_pages (w := stackMapping mm) (by omega) (by omega) (by omega)
  have haligned := hpages.aligned
  refine ⟨?_, by omega, by omega, ?_, pageProt_userRw, userAttr_userRw⟩
  · rw [hvirt]
    change mm.stack % 4096 = _
    omega
  · have hlast := hok.lt _ (hpages.taken (mm.stack + mm.stackSize - 1) (by omega) (by omega)).1.1
    have hpa : (stackMapping mm).pa = mm.stack / 4096 * 4096 := rfl
    omega

theorem space_of_pages {c : Nat} (hgrows : VmState.Grows s s') (hroot : PagesOf pageSize c s s')
    (hzero : ∀ x, c ≤ x → x < c + pageSize → s'.mem x = 0) (hframe : ∀ x, ¬ s.Taken s' x → s'.mem x = s.mem x) :
    AddressSpace s s' c (spaceOf []) := by
  have hin : ∀ x, pageOf x = c → c ≤ x ∧ x < c + pageSize := by
    intro x hx
    unfold pageOf at hx
    change _ ∧ x < c + 4096
    omega
  have hz : ∀ x, pageOf x = c → s'.mem x = 0 := fun x hx => hzero x (hin x hx).1 (hin x hx).2
  obtain ⟨htree, hfoot, hwalk⟩ := zero_table hroot.aligned hz 3
  refine ⟨hgrows, htree, fun x hx => ?_, hframe, tidy_zero hroot.aligned hz 3, fun x _ => ?_, nofun⟩
  · have hpage := (hfoot _).mp hx
    exact hroot.taken x (hin x hpage).1 (hin x hpage).2
  · rw [hwalk x]
    rfl

structure Initialised (p : LoadedProcess) (h : Heap) (s : VmState) (proc : UserProcess) : Prop where
  image : proc.image = p.user.image
  stackSize : proc.mm.stackSize = chooseStackSize p.user.image.stackSize
  stack : PagesOf proc.mm.stackSize proc.mm.stack ⟨h, 0⟩ s
  apart : AllApart (mappings p proc.mm)
  tables : ∀ x, Foot s.mem 3 proc.mm.pgDir (pageOf x) → ¬ (proc.mm.stack ≤ x ∧ x < proc.mm.stack + proc.mm.stackSize)
  space : AddressSpace ⟨h, 0⟩ s proc.mm.pgDir (spaceOf (mappings p proc.mm))

/-- If the segments and the meta blob are on different pages below the stack then the tables translate what was
asked for. -/
theorem processMemoryInit_space (hok : (⟨h, 0⟩ : VmState).Ok) (hmod : p.user.image.stackSize % pageSize = 0)
    (hvalid : ∀ w ∈ p.segments.map segmentMapping ++ [metaMapping p.user.image], w.Valid)
    (hapart : AllApart (p.segments.map segmentMapping ++ [metaMapping p.user.image]))
    (hlow : ∀ w ∈ p.segments.map segmentMapping ++ [metaMapping p.user.image], w.vaEnd ≤ processStackTop - processMaxStackSize)
    (hrun : processMemoryInit p h = some (s, .ok proc)) : Initialised p h s proc := by
  obtain ⟨h₁, h₂, h₃, stack, heap, pgDir, hs₁, hs₂, hs₃, himg, hsize, hstack, hdir, err, hmap⟩ :=
    processMemoryInit_cases hok hrun
  obtain ⟨hmod, hge, hle⟩ := chooseStackSize_spec hmod
  obtain ⟨hpages, -⟩ := alignUp_buffer hs₁ hge (by omega)
  obtain ⟨hroot, hzero⟩ := alignUp_buffer hs₃ (Nat.le_refl _) (by decide)
  rw [← hsize] at hmod hge hle
  rw [← hstack, ← hsize] at hpages
  rw [← hdir] at hroot hzero
  have hg₁ : VmState.Grows ⟨h, 0⟩ ⟨h₁, 0⟩ := hs₁.grows hok
  have hg₂ : VmState.Grows ⟨h₁, 0⟩ ⟨h₂, 0⟩ := hs₂.grows hg₁.ok
  have hg₃ : VmState.Grows ⟨h₂, 0⟩ ⟨h₃, 0⟩ := hs₃.grows hg₂.ok
  have hstart : AddressSpace ⟨h₁, 0⟩ ⟨h₃, 0⟩ proc.mm.pgDir (spaceOf []) :=
    (space_of_pages hg₃ hroot hzero fun _ hx => unchanged_of_kmalloced hs₃ hx).of_grows hg₂
      fun _ hx => unchanged_of_kmalloced hs₂ hx
  have hstackvalid := stackMapping_valid hok hmod hge hle hpages
  have hall : AllApart (p.segments.map segmentMapping ++ [metaMapping p.user.image] ++ [stackMapping proc.mm]) := by
    refine List.pairwise_append.mpr ⟨hapart, List.pairwise_singleton _ _, fun v hv w hw x hvx hwx => ?_⟩
    obtain rfl := List.mem_singleton.mp hw
    have h1 := hlow v hv
    have h2 : (stackMapping proc.mm).va = processStackTop - proc.mm.stackSize :=
      Nat.div_mul_cancel (Nat.dvd_of_mod_eq_zero (hstackvalid.congr ▸ hpages.aligned))
    have h3 := hvx.2
    have h4 := hwx.1
    have h5 : processMaxStackSize = 65536 := rfl
    omega
  rw [processMapAll_eq, mappings, List.append_cons] at hmap
  obtain ⟨-, hspace⟩ := processMapList_space hstart
    (List.forall_mem_append.mpr ⟨hvalid, List.forall_mem_singleton.mpr hstackvalid⟩) hall hmap
  rw [List.nil_append, ← List.append_cons] at hspace
  rw [← List.append_cons] at hall
  exact ⟨himg, hsize, ⟨hpages.aligned, fun x h1 h2 => hspace.grows.taken_left (hpages.taken x h1 h2)⟩, hall,
    fun x hx h1 => (hspace.foot x hx).1.2 (hpages.taken x h1.1 h1.2).2, hspace.of_grows hg₁ fun _ hx => unchanged_of_kmalloced hs₁ hx⟩

end QuestOS.ProcMem
