import QuestOS.Process.Meta

/-!
# The initial stack of a process

`process_stack_init` writes the argument count, the pointers to the arguments and to the environment, and
the auxiliary vector at the top of the stack; the pointers are rebased from the meta blob in kernel memory to
the window of the process where the blob is mapped.

Every write of the function is one step of a `Wrote` chain, so that the whole of it is one list of words
(`stackWords`) written at once (`processStackInit_wrote`).  What a process reads there is `StackLayout`;
a memory has at most one such reading.
-/

namespace QuestOS

open Bytes ProcPack

/-! ### The function -/

def metaToUserAddr (metaBase p : Nat) : BitVec 64 :=
  BitVec.ofNat 64 p - BitVec.ofNat 64 metaBase + BitVec.ofNat 64 processMetaStart

def storePtrs (metaBase : Nat) (m : Mem) (sp : Nat) : List Nat → Mem × Nat
  | [] => (store64 m sp 0, sp + 8)
  | p :: ps => storePtrs metaBase (store64 m sp (metaToUserAddr metaBase p)) (sp + 8) ps

def copyAuxv (m : Mem) (sp : Nat) : List Nat → Mem × Nat
  | [] => (m, sp)
  | p :: ps => copyAuxv (copy m sp p 16) (sp + 16) ps

/-- `process_stack_init`: `none` is a `BUG_ON`, the value `used_size` and the memory. -/
def processStackInit (mm : MemoryStruct) (img : ProcessImage) (m : Mem) : Option (Except Int (Nat × Mem)) :=
  match processStackCheck mm img with
  | none => none
  | some (.error e) => some (.error e)
  | some (.ok usedSize) =>
    let spTop := mm.stack + mm.stackSize
    let sp := spTop - usedSize
    let m := store64 m sp (BitVec.ofNat 64 img.argc)
    let (m, sp) := storePtrs img.metaData m (sp + 8) (img.argv.take img.argc)
    let (m, sp) := storePtrs img.metaData m sp (img.env.take img.envCount)
    let (m, sp) := copyAuxv m sp (img.auxv.take img.auxvCount)
    if spTop < sp then none
    else
      let m := if sp < spTop then fill m sp (spTop - sp) 0 else m
      some (.ok (usedSize, m))

/-! ### What a process reads -/

def CString (m : Mem) (p : Nat) (s : List UInt8) : Prop := 0 ∉ s ∧ At m p (s ++ [0])

def StringsAt (m : Mem) : (a : Nat) → List (List UInt8) → Prop
  | a, [] => loadLE m a 8 = 0
  | a, s :: ss => loadLE m a 8 ≠ 0 ∧ CString m (loadLE m a 8) s ∧ StringsAt m (a + 8) ss

def PairsAt (m : Mem) : (a : Nat) → List (Nat × Nat) → Prop
  | _, [] => True
  | a, p :: ps => loadLE m a 8 = p.1 ∧ loadLE m (a + 8) 8 = p.2 ∧ PairsAt m (a + 16) ps

structure StackLayout (m : Mem) (sp : Nat) (args vars : List (List UInt8)) (aux : List (Nat × Nat)) : Prop where
  argc : loadLE m sp 8 = args.length
  argv : StringsAt m (sp + 8) args
  envp : StringsAt m (sp + 8 + 8 * (args.length + 1)) vars
  auxv : PairsAt m (sp + 8 + 8 * (args.length + 1) + 8 * (vars.length + 1)) aux

variable {m m' : Mem} {a sp p : Nat} {s t : List UInt8} {ss ts : List (List UInt8)} {xs ys : List (Nat × Nat)}

theorem CString.unique (hs : CString m p s) (ht : CString m p t) : s = t := by
  obtain ⟨hs0, hs⟩ := hs
  obtain ⟨ht0, ht⟩ := ht
  induction s generalizing p t with
  | nil =>
    cases t with
    | nil => rfl
    | cons c t =>
      refine absurd ?_ ht0
      rw [← hs.1, ht.1]
      exact List.mem_cons_self
  | cons b s ih =>
    cases t with
    | nil =>
      refine absurd ?_ hs0
      rw [← ht.1, hs.1]
      exact List.mem_cons_self
    | cons c t =>
      rw [List.mem_cons, not_or] at hs0 ht0
      rw [← hs.1, ht.1, ih hs0.2 hs.2 ht0.2 ht.2]

theorem StringsAt.unique (hs : StringsAt m a ss) (ht : StringsAt m a ts) : ss = ts := by
  induction ss generalizing a ts with
  | nil =>
    cases ts with
    | nil => rfl
    | cons t ts => exact absurd hs ht.1
  | cons s ss ih =>
    cases ts with
    | nil => exact absurd ht hs.1
    | cons t ts => rw [hs.2.1.unique ht.2.1, ih hs.2.2 ht.2.2]

theorem PairsAt.unique (hx : PairsAt m a xs) (hy : PairsAt m a ys) (hl : xs.length = ys.length) : xs = ys := by
  induction xs generalizing a ys with
  | nil => exact (List.eq_nil_of_length_eq_zero hl.symm).symm
  | cons x xs ih =>
    cases ys with
    | nil => exact absurd hl (by simp)
    | cons y ys =>
      have hhead : x = y := Prod.ext (hx.1.symm.trans hy.1) (hx.2.1.symm.trans hy.2.1)
      rw [hhead, ih hx.2.2 hy.2.2 (by simpa using hl)]

theorem StackLayout.iff_eq {args vars args' vars' : List (List UInt8)} (h : StackLayout m sp args vars xs)
    (hl : ys.length = xs.length) :
    StackLayout m sp args' vars' ys ↔ args' = args ∧ vars' = vars ∧ ys = xs := by
  constructor
  · intro h'
    obtain rfl := h'.argv.unique h.argv
    obtain rfl := h'.envp.unique h.envp
    exact ⟨rfl, rfl, h'.auxv.unique h.auxv hl⟩
  · rintro ⟨rfl, rfl, rfl⟩
    exact h

/-! ### What is written -/

def wordFields (ws : List Nat) : List (Nat × Nat) := ws.map (8, ·)

def userPtrs (metaBase : Nat) (ps : List Nat) : List Nat := ps.map (fun p => (metaToUserAddr metaBase p).toNat) ++ [0]

@[simp] theorem length_encodeFields_wordFields (ws : List Nat) : (encodeFields (wordFields ws)).length = 8 * ws.length := by
  induction ws with
  | nil => rfl
  | cons w ws ih =>
    rw [wordFields] at ih
    simp only [wordFields, List.map_cons, encodeFields_cons, List.length_append, length_encodeLE, ih, List.length_cons]
    omega

@[simp] theorem length_userPtrs (b : Nat) (ps : List Nat) : (userPtrs b ps).length = ps.length + 1 := by
  simp [userPtrs]

theorem storePtrs_wrote (b : Nat) (m : Mem) (sp : Nat) (ps : List Nat) :
    (storePtrs b m sp ps).2 = sp + 8 * (ps.length + 1) ∧
      Wrote m (storePtrs b m sp ps).1 sp (encodeFields (wordFields (userPtrs b ps))) := by
  induction ps generalizing m sp with
  | nil =>
    refine ⟨rfl, ?_⟩
    have := store64_wrote m sp 0
    simpa [storePtrs, userPtrs, wordFields] using this
  | cons p ps ih =>
    obtain ⟨h1, h2⟩ := ih (store64 m sp (metaToUserAddr b p)) (sp + 8)
    have hfirst := store64_wrote m sp (metaToUserAddr b p)
    rw [storePtrs]
    refine ⟨by rw [h1, List.length_cons]; omega, ?_⟩
    have := hfirst.append (by rwa [length_encodeLE])
    simpa [userPtrs, wordFields] using this

theorem auxvPtrs_succ (q n : Nat) :
    (List.range (n + 1)).map (q + 16 * ·) = q :: (List.range n).map (q + 16 + 16 * ·) := by
  rw [List.range_succ_eq_map, List.map_cons, List.map_map]
  congr 1
  refine List.map_congr_left fun i _ => ?_
  simp only [Function.comp_apply]
  omega

theorem copyAuxv_wrote {q : Nat} (h : At m q (encodeFields (auxvFields xs)))
    (hd : q + 16 * xs.length ≤ sp ∨ sp + 16 * xs.length ≤ q) :
    (copyAuxv m sp ((List.range xs.length).map (q + 16 * ·))).2 = sp + 16 * xs.length ∧
      Wrote m (copyAuxv m sp ((List.range xs.length).map (q + 16 * ·))).1 sp (encodeFields (auxvFields xs)) := by
  induction xs generalizing m sp q with
  | nil => exact ⟨rfl, Wrote.nil _ _⟩
  | cons x xs ih =>
    have hsplit : encodeFields (auxvFields (x :: xs)) =
        encodeFields [(8, x.1), (8, x.2)] ++ encodeFields (auxvFields xs) := by
      rw [auxvFields, List.flatMap_cons, encodeFields_append, ← auxvFields]
    have hlen : (encodeFields [(8, x.1), (8, x.2)]).length = 16 := rfl
    rw [hsplit, at_append, hlen] at h
    rw [List.length_cons] at hd ⊢
    have hfirst := copy_wrote h.1 sp
    rw [hlen] at hfirst
    have hrest : At (copy m sp q 16) (q + 16) (encodeFields (auxvFields xs)) := by
      refine hfirst.at_of_disjoint h.2 ?_
      rw [hlen, length_encodeFields_auxvFields]
      omega
    obtain ⟨h1, h2⟩ := ih hrest (show q + 16 + 16 * xs.length ≤ sp + 16 ∨ sp + 16 + 16 * xs.length ≤ q + 16 by omega)
    rw [auxvPtrs_succ, copyAuxv]
    refine ⟨by rw [h1]; omega, ?_⟩
    rw [hsplit]
    exact hfirst.append (by rwa [hlen])

def stackBlock (img : ProcessImage) (xs : List (Nat × Nat)) (pad : Nat) : List UInt8 :=
  encodeFields (wordFields [img.argc]) ++ encodeFields (wordFields (userPtrs img.metaData img.argv)) ++
    encodeFields (wordFields (userPtrs img.metaData img.env)) ++ encodeFields (auxvFields xs) ++ List.replicate pad 0

theorem length_stackBlock (img : ProcessImage) (xs : List (Nat × Nat)) (pad : Nat) :
    (stackBlock img xs pad).length = 8 + 8 * (img.argv.length + 1) + 8 * (img.env.length + 1) + 16 * xs.length + pad := by
  simp only [stackBlock, List.length_append, length_encodeFields_wordFields, length_userPtrs,
    length_encodeFields_auxvFields, List.length_replicate, List.length_singleton, Nat.mul_one]

variable {mm : MemoryStruct}

theorem processStackInit_wrote {img : ProcessImage} {used q : Nat} (hc : img.Checked)
    (hargv : img.argv.length = img.argc) (henv : img.env.length = img.envCount) (hcount : img.auxvCount = xs.length)
    (hauxv : img.auxv = (List.range xs.length).map (q + 16 * ·)) (hat : At m q (encodeFields (auxvFields xs)))
    (hd : q + 16 * xs.length ≤ mm.stack ∨ mm.stack + mm.stackSize ≤ q)
    (hchk : processStackCheck mm img = some (.ok used)) :
    ∃ m' pad, processStackInit mm img m = some (.ok (used, m')) ∧ (stackBlock img xs pad).length = used ∧
      Wrote m m' (mm.stack + mm.stackSize - used) (stackBlock img xs pad) := by
  obtain ⟨-, hsize, hle⟩ := processStackCheck_ok hchk
  rw [calculateStackMetaSize_eq hc, hcount] at hsize
  have hargc : img.argc < 2 ^ 64 := by
    have := hc.argc_le
    simp only [processMaxArgs] at this
    omega
  rw [processStackInit, hchk]
  dsimp only
  generalize hsp : mm.stack + mm.stackSize - used = sp
  have w0 := store64_wrote m sp (BitVec.ofNat 64 img.argc)
  rw [BitVec.toNat_ofNat, Nat.mod_eq_of_lt hargc] at w0
  generalize store64 m sp (BitVec.ofNat 64 img.argc) = m0 at w0
  have hargvAll : img.argv.take img.argc = img.argv := by rw [← hargv, List.take_length]
  have henvAll : img.env.take img.envCount = img.env := by rw [← henv, List.take_length]
  have hauxvAll : img.auxv.take img.auxvCount = img.auxv := by
    rw [hcount, hauxv]
    exact List.take_of_length_le (by simp)
  rw [hargvAll, henvAll, hauxvAll, hauxv]
  have w1 := storePtrs_wrote img.metaData m0 (sp + 8) img.argv
  generalize storePtrs img.metaData m0 (sp + 8) img.argv = r1 at w1
  obtain ⟨m1, sp1⟩ := r1
  obtain ⟨rfl, w1⟩ := w1
  dsimp only at w1 ⊢
  generalize hsp1 : sp + 8 + 8 * (img.argv.length + 1) = sp1
  have w2 := storePtrs_wrote img.metaData m1 sp1 img.env
  generalize storePtrs img.metaData m1 sp1 img.env = r2 at w2
  obtain ⟨m2, sp2⟩ := r2
  obtain ⟨rfl, w2⟩ := w2
  dsimp only at w2 ⊢
  generalize hsp2 : sp1 + 8 * (img.env.length + 1) = sp2
  have w012 := (w0.append (by rwa [length_encodeLE])).append
    (show Wrote m1 m2 (sp + _) _ by
      rw [List.length_append, length_encodeLE, length_encodeFields_wordFields, length_userPtrs, ← Nat.add_assoc, hsp1]
      exact w2)
  have hlen012 : sp + (encodeLE 8 img.argc ++ encodeFields (wordFields (userPtrs img.metaData img.argv)) ++
      encodeFields (wordFields (userPtrs img.metaData img.env))).length = sp2 := by
    simp only [List.length_append, length_encodeLE, length_encodeFields_wordFields, length_userPtrs]
    omega
  have hat2 : At m2 q (encodeFields (auxvFields xs)) := by
    refine w012.at_of_disjoint hat ?_
    rw [hlen012, length_encodeFields_auxvFields]
    omega
  have w3 := copyAuxv_wrote hat2 (show q + 16 * xs.length ≤ sp2 ∨ sp2 + 16 * xs.length ≤ q by omega)
  generalize copyAuxv m2 sp2 ((List.range xs.length).map (q + 16 * ·)) = r3 at w3
  obtain ⟨m3, sp3⟩ := r3
  obtain ⟨rfl, w3⟩ := w3
  dsimp only at w3 ⊢
  generalize hsp3 : sp2 + 16 * xs.length = sp3
  have htop : sp3 ≤ mm.stack + mm.stackSize := by omega
  rw [if_neg (by omega)]
  have w4 : Wrote m3 (if sp3 < mm.stack + mm.stackSize then fill m3 sp3 (mm.stack + mm.stackSize - sp3) 0 else m3) sp3
      (List.replicate (mm.stack + mm.stackSize - sp3) 0) := by
    split
    · exact fill_wrote _ _ _ _
    · rw [show mm.stack + mm.stackSize - sp3 = 0 by omega]
      exact Wrote.nil _ _
  refine ⟨_, mm.stack + mm.stackSize - sp3, rfl, by rw [length_stackBlock]; omega, ?_⟩
  have hone : encodeFields (wordFields [img.argc]) = encodeLE 8 img.argc := by simp [wordFields]
  rw [stackBlock, hone]
  refine (w012.append (by rwa [hlen012])).append ?_
  rwa [List.length_append, ← Nat.add_assoc, hlen012, length_encodeFields_auxvFields, hsp3]

theorem processStackInit_ok {img : ProcessImage} {used : Nat}
    (h : processStackInit mm img m = some (.ok (used, m'))) : processStackCheck mm img = some (.ok used) := by
  rw [processStackInit] at h
  split at h
  · cases h
  · cases h
  · next hchk =>
    dsimp only at h
    split at h
    · cases h
    · cases h
      exact hchk

theorem copyAuxv_snd (m : Mem) (sp : Nat) (ps : List Nat) : (copyAuxv m sp ps).2 = sp + 16 * ps.length := by
  induction ps generalizing m sp with
  | nil => rfl
  | cons p ps ih =>
    rw [copyAuxv, ih, List.length_cons]
    omega

theorem copyAuxv_frame (m : Mem) (sp x : Nat) (ps : List Nat) (hx : ¬ (sp ≤ x ∧ x < sp + 16 * ps.length)) :
    (copyAuxv m sp ps).1 x = m x := by
  induction ps generalizing m sp with
  | nil => rfl
  | cons p ps ih =>
    rw [List.length_cons] at hx
    rw [copyAuxv, ih _ _ (by omega)]
    exact if_neg (by omega)

theorem storePtrs_frame (b : Nat) (m : Mem) (sp x : Nat) (ps : List Nat)
    (hx : ¬ (sp ≤ x ∧ x < sp + 8 * (ps.length + 1))) : (storePtrs b m sp ps).1 x = m x := by
  apply (storePtrs_wrote b m sp ps).2.frame
  rwa [length_encodeFields_wordFields, length_userPtrs]

theorem processStackInit_frame {img : ProcessImage} {used x : Nat}
    (hrun : processStackInit mm img m = some (.ok (used, m'))) (hx : ¬ (mm.stack ≤ x ∧ x < mm.stack + mm.stackSize)) :
    m' x = m x := by
  obtain ⟨-, -, hle⟩ := processStackCheck_ok (processStackInit_ok hrun)
  rw [processStackInit, processStackInit_ok hrun] at hrun
  dsimp only at hrun
  generalize hm0 : store64 m (mm.stack + mm.stackSize - used) (BitVec.ofNat 64 img.argc) = m0 at hrun
  have e1 := (storePtrs_wrote img.metaData m0 (mm.stack + mm.stackSize - used + 8) (img.argv.take img.argc)).1
  have f1 := storePtrs_frame img.metaData m0 (mm.stack + mm.stackSize - used + 8) x (img.argv.take img.argc)
  generalize storePtrs _ _ _ (img.argv.take img.argc) = r1 at e1 f1 hrun
  have e2 := (storePtrs_wrote img.metaData r1.1 r1.2 (img.env.take img.envCount)).1
  have f2 := storePtrs_frame img.metaData r1.1 r1.2 x (img.env.take img.envCount)
  generalize storePtrs _ _ _ (img.env.take img.envCount) = r2 at e2 f2 hrun
  have e3 := copyAuxv_snd r2.1 r2.2 (img.auxv.take img.auxvCount)
  have f3 := copyAuxv_frame r2.1 r2.2 x (img.auxv.take img.auxvCount)
  generalize copyAuxv _ _ (img.auxv.take img.auxvCount) = r3 at e3 f3 hrun
  split at hrun
  · cases hrun
  · cases hrun
    have hfill : (if r3.2 < mm.stack + mm.stackSize then fill r3.1 r3.2 (mm.stack + mm.stackSize - r3.2) 0 else r3.1) x = r3.1 x := by
      split
      · exact fill_of_not (by omega)
      · rfl
    rw [hfill, f3 (by omega), f2 (by omega), f1 (by omega), ← hm0, store64_of_not (by omega)]

/-- The writes stay below the top: what `process_stack_init` returns is decided by its check alone. -/
theorem processStackInit_map_fst {img : ProcessImage} (hc : img.Checked) (mm : MemoryStruct) (m : Mem) :
    (processStackInit mm img m).map (·.map Prod.fst) = processStackCheck mm img := by
  rw [processStackInit]
  split
  · next h => rw [h]; rfl
  · next h => rw [h]; rfl
  · next used h =>
    obtain ⟨-, hsize, hle⟩ := processStackCheck_ok h
    rw [calculateStackMetaSize_eq hc] at hsize
    dsimp only
    generalize store64 m (mm.stack + mm.stackSize - used) (BitVec.ofNat 64 img.argc) = m0
    have e1 := (storePtrs_wrote img.metaData m0 (mm.stack + mm.stackSize - used + 8) (img.argv.take img.argc)).1
    generalize storePtrs _ _ _ (img.argv.take img.argc) = r1 at e1
    have e2 := (storePtrs_wrote img.metaData r1.1 r1.2 (img.env.take img.envCount)).1
    generalize storePtrs _ _ _ (img.env.take img.envCount) = r2 at e2
    have e3 := copyAuxv_snd r2.1 r2.2 (img.auxv.take img.auxvCount)
    generalize copyAuxv _ _ (img.auxv.take img.auxvCount) = r3 at e3
    have h1 := List.length_take_le img.argc img.argv
    have h2 := List.length_take_le img.envCount img.env
    have h3 := List.length_take_le img.auxvCount img.auxv
    rw [if_neg (by omega), h]
    rfl

/-! ### What is read -/

/-- The memory of the process at its first instruction: the stack below `PROCESS_STACK_TOP` and the meta blob
at `PROCESS_META_START`. -/
structure UserView (mm : MemoryStruct) (base size : Nat) (m user : Mem) : Prop where
  stack : ∀ i, 0 < i → i ≤ mm.stackSize → user (processStackTop - i) = m (mm.stack + mm.stackSize - i)
  blob : ∀ i < size, user (processMetaStart + i) = m (base + i)

theorem metaToUserAddr_toNat {b off : Nat} (h : off < 2 ^ 60) :
    (metaToUserAddr b (b + off)).toNat = processMetaStart + off := by
  have hsub : BitVec.ofNat 64 (b + off) - BitVec.ofNat 64 b = BitVec.ofNat 64 off := by
    rw [BitVec.ofNat_add, BitVec.add_comm, BitVec.add_sub_cancel]
  rw [metaToUserAddr, hsub, ← BitVec.ofNat_add, BitVec.toNat_ofNat, Nat.add_comm]
  have hstart : processMetaStart < 2 ^ 60 := by decide
  exact Nat.mod_eq_of_lt (by omega)

theorem stringsAt_of_at {ps : List Nat} (h : At m a (encodeFields (wordFields (ps ++ [0]))))
    (hs : List.Forall₂ (fun p s => 0 < p ∧ p < 2 ^ 64 ∧ CString m p s) ps ss) : StringsAt m a ss := by
  induction hs generalizing a with
  | nil =>
    simp only [wordFields, List.nil_append, List.map_cons, List.map_nil, encodeFields_cons, encodeFields_nil,
      List.append_nil] at h
    exact loadLE_of_at h
  | cons hp _ ih =>
    obtain ⟨h0, h64, hstr⟩ := hp
    simp only [wordFields, List.cons_append, List.map_cons, encodeFields_cons, at_append, length_encodeLE] at h
    have hload := loadLE_of_at h.1
    rw [Nat.mod_eq_of_lt (by omega)] at hload
    rw [StringsAt, hload]
    exact ⟨by omega, hstr, ih h.2⟩

theorem pairsAt_of_at (h : At m a (encodeFields (auxvFields xs))) (hf : Fits (auxvFields xs)) : PairsAt m a xs := by
  induction xs generalizing a with
  | nil => trivial
  | cons x xs ih =>
    have hcons : auxvFields (x :: xs) = [(8, x.1), (8, x.2)] ++ auxvFields xs := List.flatMap_cons
    rw [hcons, fits_append] at hf
    rw [hcons, encodeFields_append, at_append] at h
    obtain ⟨h1, h2, -⟩ := loadsAs_of_at h.1 hf.1
    exact ⟨h1, h2, ih h.2 hf.2⟩

theorem stringsAt_userPtrs {user : Mem} {table : List UInt8} {offs : List Nat} {base tableOff : Nat}
    (hp : At user a (encodeFields (wordFields (userPtrs base (offs.map (base + tableOff + ·))))))
    (htable : At user (processMetaStart + tableOff) table) (hin : List.Forall₂ (StringIn table) offs ss)
    (hbound : tableOff + table.length < 2 ^ 60) (hnul : ∀ s ∈ ss, 0 ∉ s) : StringsAt user a ss := by
  have hstart : 0 < processMetaStart ∧ processMetaStart < 2 ^ 60 := by decide
  refine stringsAt_of_at hp ?_
  rw [List.forall₂_map_left_iff, List.forall₂_map_left_iff]
  clear hp
  induction hin with
  | nil => exact .nil
  | @cons off s offs ss h _ ih =>
    have hlt := h.1
    rw [List.forall_mem_cons] at hnul
    refine .cons ?_ (ih hnul.2)
    rw [Nat.add_assoc base, metaToUserAddr_toNat (by omega), ← Nat.add_assoc]
    exact ⟨by omega, by omega, hnul.1, htable.slice h.2 (Nat.le_of_lt hlt)⟩

theorem stackLayout_of_at {user : Mem} {img : ImageSpec} {image : ProcessImage} {base pad : Nat}
    (hargv : ∀ s ∈ img.argv, 0 ∉ s) (henv : ∀ s ∈ img.env, 0 ∉ s) (hfits : Fits (auxvFields img.auxv))
    (hbound : stringTableOffset img + (stringTable img).bytes.length < 2 ^ 60)
    (hargc : image.argc = img.argv.length ∧ image.argc < 256 ^ 8) (hbase : image.metaData = base)
    (hargvs : image.argv = (stringTable img).argv.map (base + stringTableOffset img + ·))
    (henvs : image.env = (stringTable img).env.map (base + stringTableOffset img + ·))
    (hstack : At user sp (stackBlock image img.auxv pad)) (hblob : MetaAt user processMetaStart img) :
    StackLayout user sp img.argv img.env img.auxv := by
  obtain ⟨hargc, h64⟩ := hargc
  rw [hargc] at h64
  rw [stackBlock, hargvs, henvs, hbase, hargc] at hstack
  simp only [at_append, List.length_append, length_encodeFields_wordFields, length_userPtrs, List.length_map,
    List.length_singleton, length_argv, length_env, ← Nat.add_assoc, Nat.mul_one] at hstack
  obtain ⟨⟨⟨⟨h1, h2⟩, h3⟩, h4⟩, -⟩ := hstack
  constructor
  · simp only [wordFields, List.map_cons, List.map_nil, encodeFields_cons, encodeFields_nil, List.append_nil] at h1
    rw [loadLE_of_at h1, Nat.mod_eq_of_lt h64]
  · exact stringsAt_userPtrs h2 hblob.strings (stringTable img).argv_in hbound hargv
  · exact stringsAt_userPtrs h3 hblob.strings (stringTable img).env_in hbound henv
  · exact pairsAt_of_at h4 hfits

theorem stackLayout_built {img : ImageSpec} {l : List UInt8} {base used : Nat}
    {image image' : ProcessImage} {name : List UInt8} {m₁ user : Mem} (hb : buildImageMeta img = some l)
    (hargv : ∀ s ∈ img.argv, 0 ∉ s) (henv : ∀ s ∈ img.env, 0 ∉ s) (hat : At m base l) (hat₁ : At m₁ base l)
    (hd : base + l.length ≤ mm.stack ∨ mm.stack + mm.stackSize ≤ base)
    (hl : loadUserMeta m base l.length image = .ok (name, image'))
    (hi : processStackInit mm image' m₁ = some (.ok (used, m'))) (hu : UserView mm base l.length m' user) :
    StackLayout user (processStackTop - used) img.argv img.env img.auxv ∧ (processStackTop - used) % 16 = 0 ∧
      ∀ x, ¬ (mm.stack + mm.stackSize - used ≤ x ∧ x < mm.stack + mm.stackSize) → m' x = m₁ x := by
  obtain ⟨⟨-, -, hfits, hheader⟩, rfl⟩ := buildImageMeta_eq_some.1 hb
  have hmeta₁ := metaAt_of_at hb hat₁
  obtain ⟨hchecked, hbase, hargc, hargvs, henvc, henvs, hauxc, hauxs⟩ := loadUserMeta_built (metaAt_of_at hb hat) hl
  have hchk := processStackInit_ok hi
  obtain ⟨htop, hsize, hle⟩ := processStackCheck_ok hchk
  rw [calculateStackMetaSize_eq hchecked] at hsize
  have hlen := length_metaBlob img
  have htable : stringTableOffset img = auxvOffset img + img.auxv.length * 16 := rfl
  obtain ⟨m'', pad, hi', hused, hw⟩ := processStackInit_wrote (m := m₁) hchecked
    (by rw [hargvs, List.length_map, length_argv, hargc]) (by rw [henvs, List.length_map, length_env, henvc])
    hauxc hauxs hmeta₁.auxv (by omega) hchk
  cases hi'.symm.trans hi
  have h1 := hchecked.argc_le
  have h2 := hchecked.envCount_le
  have h3 := hchecked.auxvCount_le
  simp only [processMaxArgs] at h1 h2 h3
  have htopSize : 8192 ≤ processStackTop ∧ processStackTop % 16 = 0 := by decide
  have hstack : At user (processStackTop - used) (stackBlock image' img.auxv pad) := by
    refine hw.at_.congr fun i hi => ?_
    have := hu.stack (used - i) (by omega) (by omega)
    rwa [show processStackTop - (used - i) = processStackTop - used + i by omega,
      show mm.stack + mm.stackSize - (used - i) = mm.stack + mm.stackSize - used + i by omega] at this
  refine ⟨?_, by omega, fun x hx => hw.frame x (by omega)⟩
  have hbound : stringTableOffset img + (stringTable img).bytes.length < 2 ^ 60 := by
    have h1 : (stringTable img).bytes.length < 256 ^ 4 := hheader (4, (stringTable img).bytes.length) (by simp [metaFields])
    have h2 : stringTableOffset img < 256 ^ 4 := hheader (4, stringTableOffset img) (by simp [metaFields])
    omega
  refine stackLayout_of_at hargv henv hfits hbound ⟨hargc, by omega⟩ hbase hargvs henvs hstack ?_
  exact metaAt_of_at hb (At.congr (hw.at_of_disjoint hat₁ (by omega)) hu.blob)

/-- From the package tool to EL0: the check accepts a blob exactly for few entries and whole pages of stack;
the strings and pairs that the process then finds on its stack are those the blob was built from, its stack
pointer is aligned, and nothing is written outside the block at the top of its stack.  The block that
`kmalloc` returned for the stack is apart from the blob. -/
theorem process_meta_round_trip (img : ImageSpec) (blob : List UInt8) (base : Nat) (m : Mem)
    (hb : buildImageMeta img = some blob) (hargv : ∀ s ∈ img.argv, 0 ∉ s) (henv : ∀ s ∈ img.env, 0 ∉ s)
    (hat : At m base blob) :
    (checkImageMeta m base blob.length = 0 ↔
      (img.argv.length ≤ 128 ∧ img.env.length ≤ 128 ∧ img.auxv.length ≤ 128) ∧ img.stackSize % pageSize = 0) ∧
    ∀ (image image' : ProcessImage) (name : List UInt8) (mm : MemoryStruct) (m₁ m' user : Mem) (used : Nat),
      loadUserMeta m base blob.length image = .ok (name, image') →
      At m₁ base blob →
      (base + blob.length ≤ mm.stack ∨ mm.stack + mm.stackSize ≤ base) →
      processStackInit mm image' m₁ = some (.ok (used, m')) →
      UserView mm base blob.length m' user →
      (∀ args vars aux, aux.length = img.auxv.length →
        (StackLayout user (processStackTop - used) args vars aux ↔ args = img.argv ∧ vars = img.env ∧ aux = img.auxv)) ∧
      (processStackTop - used) % 16 = 0 ∧
      ∀ x, ¬ (mm.stack + mm.stackSize - used ≤ x ∧ x < mm.stack + mm.stackSize) → m' x = m₁ x := by
  constructor
  · have hmeta := metaAt_of_at hb hat
    obtain ⟨-, rfl⟩ := buildImageMeta_eq_some.1 hb
    exact checkImageMeta_built hmeta
  · intro image image' name mm m₁ m' user used hl hat₁ hd hi hu
    obtain ⟨hlayout, hsp, hframe⟩ := stackLayout_built hb hargv henv hat hat₁ hd hl hi hu
    exact ⟨fun args vars aux hlen => hlayout.iff_eq hlen, hsp, hframe⟩

def smallMem : Mem := fun x => smallBlob.getD (x - 4096) 0

def smallStack : MemoryStruct := ⟨0, 0, 65536, 8192, 0, 0, 0⟩

def smallImage : ProcessImage := ⟨4096, 76, 1, [4170], 0, [], 1, [4152], 8192, 0⟩

def smallView (m : Mem) : Mem :=
  fun x => if x < processStackTop - 8192 then m (4096 + (x - processMetaStart)) else m (65536 + (x - (processStackTop - 8192)))

theorem process_meta_round_trip_small :
    loadUserMeta smallMem 4096 smallBlob.length ⟨0, 0, 0, [], 0, [], 0, [], 0, 0⟩ = .ok ([97], smallImage) ∧
      ∃ m', processStackInit smallStack smallImage smallMem = some (.ok (48, m')) ∧
        StackLayout (smallView m') (processStackTop - 48) [[97]] [] [(0, 0)] := by
  have hat : At smallMem 4096 smallBlob := by
    rw [at_iff_getElem]
    intro i hi
    rw [smallMem, Nat.add_sub_cancel_left]
    exact List.getD_eq_getElem _ _ hi
  have hload : loadUserMeta smallMem 4096 smallBlob.length ⟨0, 0, 0, [], 0, [], 0, [], 0, 0⟩ = .ok ([97], smallImage) := by
    decide +kernel
  refine ⟨hload, _, rfl, ?_⟩
  have hview : ∀ m, UserView smallStack 4096 smallBlob.length m (smallView m) := by
    intro m
    have htop : processStackTop = 0x41C0000000 ∧ processMetaStart = 0x140000000 ∧ smallBlob.length = 76 := by decide
    constructor
    · intro i h0 hi
      simp only [smallStack] at hi ⊢
      rw [smallView, if_neg (by omega)]
      exact congrArg m (by omega)
    · intro i hi
      rw [smallView, if_pos (by omega), Nat.add_sub_cancel_left]
  obtain ⟨-, hround⟩ := process_meta_round_trip smallSpec smallBlob 4096 smallMem smallBlob_built (by decide) (by decide) hat
  have := hround _ _ _ smallStack smallMem _ _ 48 hload hat (by decide) rfl (hview _)
  exact (this.1 [[97]] [] [(0, 0)] rfl).2 ⟨rfl, rfl, rfl⟩

end QuestOS
