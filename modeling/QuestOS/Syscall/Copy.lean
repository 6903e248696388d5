import QuestOS.Lib.Bytes

/-!
# Copying from user space

`copy_from_user` of `uaccess.h`, with `__arch_copy_from_user` of `uaccess.c`.  User space is what the instruction
`at s1e0r` sees of it: a partial map from pages to physical pages that EL0 can read.  The pages are read through the
linear map; the destination is an object of the kernel and lies in a memory of its own.

`copyFromUser_spec` is the contract of the function.
-/

namespace QuestOS

open Bytes

structure UserSpace where
  frame : Nat → Option (BitVec 36)
  ram : Mem

/-- `user_access_at(uaddr, false, &pa)`; `none` is the fault bit of `PAR_EL1`. -/
def UserSpace.translate (s : UserSpace) (uaddr : Nat) : Option Nat :=
  (s.frame (uaddr / 4096)).map fun f => f.toNat * 4096 + uaddr % 4096

/-- The memory of the kernel with the addresses stored to, and the bytes read so far: the user address of each and the
physical address that was read for it. -/
structure Copied where
  mem : Mem
  stores : List Nat := []
  reads : List (Nat × Nat) := []

def Copied.memcpy (c : Copied) (ram : Mem) (kto pa uaddr len : Nat) : Copied where
  mem := write c.mem kto ((List.range len).map fun i => ram (pa + i))
  stores := c.stores ++ List.range' kto len
  reads := c.reads ++ (List.range len).map fun i => (uaddr + i, pa + i)

def Copied.clear (c : Copied) (kto len : Nat) : Copied :=
  { c with mem := fill c.mem kto len 0, stores := c.stores ++ List.range' kto len }

variable (s : UserSpace)

def copyPages (n uaddr kto : Nat) (c : Copied) : Nat × Copied :=
  if 4096 ≤ n then
    match s.translate uaddr with
    | none => (n, c)
    | some pa => copyPages (n - 4096) ((uaddr + 4096) % 2 ^ 64) (kto + 4096) (c.memcpy s.ram kto pa uaddr 4096)
  else if n ≠ 0 then
    match s.translate uaddr with
    | none => (n, c)
    | some pa => (0, c.memcpy s.ram kto pa uaddr n)
  else (0, c)
termination_by n
decreasing_by omega

def archCopyFromUser (mem : Mem) (kto uaddr n : Nat) : Nat × Copied :=
  let c : Copied := { mem }
  if uaddr % 4096 ≠ 0 then
    match s.translate uaddr with
    | none => (n, c)
    | some pa =>
      let len := min n (4096 - uaddr % 4096)
      copyPages s (n - len) ((uaddr + len) % 2 ^ 64) (kto + len) (c.memcpy s.ram kto pa uaddr len)
  else copyPages s n uaddr kto c

def AccessOk (addr size : BitVec 64) : Prop := size.toNat ≤ 2 ^ 48 ∧ addr.toNat ≤ 2 ^ 48 - size.toNat

instance (addr size : BitVec 64) : Decidable (AccessOk addr size) := inferInstanceAs (Decidable (_ ∧ _))

def uaccessMaskPtr (ptr : BitVec 64) : BitVec 64 := ptr &&& ~~~(1#64 <<< 55)

def inlineCopyFromUser (mem : Mem) (kto : Nat) (src n : BitVec 64) : Nat × Copied :=
  if AccessOk src n then
    let (res, c) := archCopyFromUser s mem kto (uaccessMaskPtr src).toNat n.toNat
    if res = 0 then (0, c) else (res, c.clear (kto + (n.toNat - res)) res)
  else (n.toNat, Copied.clear { mem } kto n.toNat)

/-- `check_copy_size`; `sz` is `__builtin_object_size`, negative where the compiler does not know it. -/
def checkCopySize (sz : Int) (bytes : BitVec 64) : Bool :=
  if 0 ≤ sz ∧ sz < bytes.toNat then false else decide (bytes.toNat < 2 ^ 31)

def copyFromUser (mem : Mem) (sz : Int) (kto : Nat) (src n : BitVec 64) : Nat × Copied :=
  if checkCopySize sz n then inlineCopyFromUser s mem kto src n else (n.toNat, { mem })

def UserSpace.Readable (src n : Nat) : Prop := ∀ page, (∃ i < n, (src + i) / 4096 = page) → (s.frame page).isSome

structure CopySpec (mem : Mem) (kto : Nat) (src n : BitVec 64) (r : Nat × Copied) : Prop where
  le : r.1 ≤ n.toNat
  copied : ∀ i < n.toNat - r.1, ∃ a, s.translate (src.toNat + i) = some a ∧ r.2.mem (kto + i) = s.ram a
  zeroed : ∀ i, n.toNat - r.1 ≤ i → i < n.toNat → r.2.mem (kto + i) = 0
  stores : ∀ x ∈ r.2.stores, kto ≤ x ∧ x < kto + n.toNat
  frame : ∀ x, ¬ (kto ≤ x ∧ x < kto + n.toNat) → r.2.mem x = mem x
  reads : ∀ rd ∈ r.2.reads, rd.1 < 2 ^ 48 ∧ s.translate rd.1 = some rd.2
  complete : 0 < n.toNat → (r.1 = 0 ↔ AccessOk src n ∧ s.Readable src.toNat n.toNat)
  refused : ¬ AccessOk src n → r.1 = n.toNat

variable {s} {c c' : Copied} {n uaddr kto pa len r : Nat}

/-! ### One page -/

/-- The step from `c` to `c'` copies the first `n - r` bytes from `uaddr` on to `kto`, and stops there if some are left
because the next one cannot be read. -/
structure Copies (s : UserSpace) (n uaddr kto : Nat) (c : Copied) (r : Nat) (c' : Copied) : Prop where
  le : r ≤ n
  copied : ∀ i < n - r, ∃ a, s.translate (uaddr + i) = some a ∧ c'.mem (kto + i) = s.ram a
  stores : ∀ x ∈ c'.stores, x ∈ c.stores ∨ kto ≤ x ∧ x < kto + (n - r)
  frame : ∀ x, ¬ (kto ≤ x ∧ x < kto + (n - r)) → c'.mem x = c.mem x
  reads : ∀ rd ∈ c'.reads, rd ∈ c.reads ∨ rd.1 < uaddr + n ∧ s.translate rd.1 = some rd.2
  stop : 0 < r → s.translate (uaddr + (n - r)) = none

theorem Copies.fault (h : s.translate uaddr = none) (n kto : Nat) (c : Copied) : Copies s n uaddr kto c n c where
  le := Nat.le_refl n
  copied := fun i hi => by omega
  stores := fun _ hx => .inl hx
  frame := fun _ _ => rfl
  reads := fun _ hrd => .inl hrd
  stop := fun _ => by rwa [Nat.sub_self, Nat.add_zero]

theorem Copies.done (s : UserSpace) (uaddr kto : Nat) (c : Copied) : Copies s 0 uaddr kto c 0 c where
  le := Nat.le_refl 0
  copied := fun i hi => by omega
  stores := fun _ hx => .inl hx
  frame := fun _ _ => rfl
  reads := fun _ hrd => .inl hrd
  stop := fun h => absurd h (Nat.lt_irrefl 0)

theorem translate_add (h : s.translate uaddr = some pa) {i : Nat} (hi : uaddr % 4096 + i < 4096) :
    s.translate (uaddr + i) = some (pa + i) := by
  have hpage : (uaddr + i) / 4096 = uaddr / 4096 := by omega
  obtain ⟨f, hf, rfl⟩ := Option.map_eq_some_iff.1 h
  rw [UserSpace.translate, hpage, hf, Option.map_some]
  refine congrArg some ?_
  omega

theorem Copies.chunk (h : s.translate uaddr = some pa) (hlen : uaddr % 4096 + len ≤ 4096) (kto : Nat) (c : Copied) :
    Copies s len uaddr kto c 0 (c.memcpy s.ram kto pa uaddr len) := by
  have hw := write_wrote c.mem kto ((List.range len).map fun i => s.ram (pa + i))
  constructor
  · exact Nat.zero_le len
  · intro i hi
    refine ⟨pa + i, translate_add h (by omega), ?_⟩
    have hget := at_iff_getElem.1 hw.at_ i (by simpa using hi)
    rw [List.getElem_map, List.getElem_range] at hget
    exact hget
  · intro x hx
    obtain hx | hx := List.mem_append.1 hx
    · exact .inl hx
    · exact .inr (List.mem_range'_1.1 hx)
  · intro x hx
    exact hw.frame x (by simpa using hx)
  · intro rd hrd
    obtain hrd | hrd := List.mem_append.1 hrd
    · exact .inl hrd
    · obtain ⟨i, hi, rfl⟩ := List.mem_map.1 hrd
      have hi := List.mem_range.1 hi
      exact .inr ⟨by omega, translate_add h (by omega)⟩
  · intro h0
    exact absurd h0 (Nat.lt_irrefl 0)

theorem Copies.trans {c'' : Copied} (h : Copies s len uaddr kto c 0 c') (h' : Copies s n (uaddr + len) (kto + len) c' r c'') :
    Copies s (len + n) uaddr kto c r c'' := by
  have hr := h'.le
  constructor
  · omega
  · intro i hi
    by_cases hlen : i < len
    · obtain ⟨a, ha, hmem⟩ := h.copied i (by omega)
      exact ⟨a, ha, by rw [h'.frame _ (by omega), hmem]⟩
    · obtain ⟨a, ha, hmem⟩ := h'.copied (i - len) (by omega)
      rw [show uaddr + len + (i - len) = uaddr + i by omega] at ha
      rw [show kto + len + (i - len) = kto + i by omega] at hmem
      exact ⟨a, ha, hmem⟩
  · intro x hx
    obtain hx | hx := h'.stores x hx
    · obtain hx | hx := h.stores x hx
      · exact .inl hx
      · exact .inr (by omega)
    · exact .inr (by omega)
  · intro x hx
    rw [h'.frame x (by omega), h.frame x (by omega)]
  · intro rd hrd
    obtain hrd | ⟨hlt, ha⟩ := h'.reads rd hrd
    · obtain hrd | ⟨hlt, ha⟩ := h.reads rd hrd
      · exact .inl hrd
      · exact .inr ⟨by omega, ha⟩
    · exact .inr ⟨by omega, ha⟩
  · intro h0
    have hstop := h'.stop h0
    rwa [show uaddr + len + (n - r) = uaddr + (len + n - r) by omega] at hstop

/-! ### The whole copy -/

theorem copyPages_copies (s : UserSpace) (n : Nat) {uaddr : Nat} (halign : uaddr % 4096 = 0) (hlt : uaddr + n ≤ 2 ^ 48)
    (kto : Nat) (c : Copied) :
    Copies s n uaddr kto c (copyPages s n uaddr kto c).1 (copyPages s n uaddr kto c).2 := by
  induction n using Nat.strong_induction_on generalizing uaddr kto c with
  | _ n ih =>
    rw [copyPages]
    split
    · next hn =>
      cases htr : s.translate uaddr with
      | none => exact Copies.fault htr n kto c
      | some pa =>
        have hnext : (uaddr + 4096) % 2 ^ 64 = uaddr + 4096 := Nat.mod_eq_of_lt (by omega)
        have hrest := ih (n - 4096) (by omega) (show (uaddr + 4096) % 4096 = 0 by omega) (by omega) (kto + 4096)
          (c.memcpy s.ram kto pa uaddr 4096)
        have hall := (Copies.chunk htr (by omega) kto c).trans hrest
        rw [Nat.add_sub_cancel' hn] at hall
        rw [hnext]
        exact hall
    · split
      · next hn hn0 =>
        cases htr : s.translate uaddr with
        | none => exact Copies.fault htr n kto c
        | some pa => exact Copies.chunk htr (by omega) kto c
      · next hn hn0 =>
        obtain rfl : n = 0 := by omega
        exact Copies.done s uaddr kto c

theorem copyPages_zero (s : UserSpace) (uaddr kto : Nat) (c : Copied) : copyPages s 0 uaddr kto c = (0, c) := by
  rw [copyPages, if_neg (by omega), if_neg (not_not_intro rfl)]

theorem archCopyFromUser_copies (s : UserSpace) (mem : Mem) (kto : Nat) (hlt : uaddr + n ≤ 2 ^ 48) :
    Copies s n uaddr kto { mem } (archCopyFromUser s mem kto uaddr n).1 (archCopyFromUser s mem kto uaddr n).2 := by
  unfold archCopyFromUser
  dsimp only
  split
  · next halign =>
    cases htr : s.translate uaddr with
    | none => exact Copies.fault htr n kto _
    | some pa =>
      generalize hlen : min n (4096 - uaddr % 4096) = len
      have hnext : (uaddr + len) % 2 ^ 64 = uaddr + len := Nat.mod_eq_of_lt (by omega)
      have hchunk := Copies.chunk htr (show uaddr % 4096 + len ≤ 4096 by omega) kto { mem }
      have hrest : Copies s (n - len) (uaddr + len) (kto + len) (Copied.memcpy { mem } s.ram kto pa uaddr len)
          (copyPages s (n - len) (uaddr + len) (kto + len) (Copied.memcpy { mem } s.ram kto pa uaddr len)).1
          (copyPages s (n - len) (uaddr + len) (kto + len) (Copied.memcpy { mem } s.ram kto pa uaddr len)).2 := by
        by_cases hn : n - len = 0
        · -- everything lies in the first page
          rw [hn, copyPages_zero]
          exact Copies.done s _ _ _
        · exact copyPages_copies s (n - len) (by omega) (by omega) _ _
      have hall := hchunk.trans hrest
      rw [Nat.add_sub_cancel' (show len ≤ n by omega)] at hall
      dsimp only
      rw [hnext]
      exact hall
  · next halign => exact copyPages_copies s n (by omega) hlt kto _

theorem uaccessMaskPtr_eq {ptr : BitVec 64} (h : ptr.toNat < 2 ^ 55) : uaccessMaskPtr ptr = ptr := by
  apply BitVec.eq_of_getLsbD_eq
  intro i hi
  rw [uaccessMaskPtr, BitVec.getLsbD_and, BitVec.getLsbD_not]
  by_cases h55 : i = 55
  · have hbit : ptr.getLsbD i = false := by
      rw [h55]
      exact Nat.testBit_lt_two_pow h
    rw [hbit, Bool.false_and]
  · have hone : (1#64 <<< 55).getLsbD i = false := by
      rw [BitVec.getLsbD_shiftLeft, BitVec.getLsbD_one]
      by_cases hlt : i < 55
      · simp [hlt]
      · simp [show i - 55 ≠ 0 by omega]
    rw [hone, Bool.not_false, Bool.and_true, decide_eq_true hi, Bool.and_true]

theorem Copies.readable_iff (h : Copies s n uaddr kto c r c') : s.Readable uaddr n ↔ r = 0 := by
  constructor
  · intro hread
    by_contra hr
    have hstop := h.stop (Nat.pos_of_ne_zero hr)
    have hle := h.le
    have hsome := hread _ ⟨n - r, by omega, rfl⟩
    rw [UserSpace.translate, Option.map_eq_none_iff] at hstop
    rw [hstop] at hsome
    cases hsome
  · rintro rfl page ⟨i, hi, rfl⟩
    obtain ⟨a, ha, -⟩ := h.copied i (by omega)
    obtain ⟨f, hf, -⟩ := Option.map_eq_some_iff.1 ha
    exact Option.isSome_of_mem hf

theorem inlineCopyFromUser_of_accessOk {mem : Mem} {kto : Nat} {src n : BitVec 64} (hok : AccessOk src n) :
    CopySpec s mem kto src n (inlineCopyFromUser s mem kto src n) := by
  have hmask : uaccessMaskPtr src = src := uaccessMaskPtr_eq (by have := hok.2; omega)
  have hc := archCopyFromUser_copies s mem kto (show src.toNat + n.toNat ≤ 2 ^ 48 by have := hok.1; have := hok.2; omega)
  rw [inlineCopyFromUser, if_pos hok, hmask]
  generalize archCopyFromUser s mem kto src.toNat n.toNat = copied at hc ⊢
  obtain ⟨res, c⟩ := copied
  have hreads : ∀ rd ∈ c.reads, rd.1 < 2 ^ 48 ∧ s.translate rd.1 = some rd.2 := by
    intro rd hrd
    obtain hrd | ⟨hlt, ha⟩ := hc.reads rd hrd
    · cases hrd
    · have h1 := hok.1
      have h2 := hok.2
      exact ⟨by omega, ha⟩
  have hstores : ∀ x ∈ c.stores, kto ≤ x ∧ x < kto + (n.toNat - res) := by
    intro x hx
    obtain hx | hx := hc.stores x hx
    · cases hx
    · exact hx
  have hiff : AccessOk src n ∧ s.Readable src.toNat n.toNat ↔ res = 0 := by
    rw [and_iff_right hok, hc.readable_iff]
  have hle := hc.le
  dsimp only at hle hreads hstores hiff ⊢
  by_cases hres : res = 0
  · subst hres
    rw [if_pos rfl]
    exact ⟨hle, hc.copied, fun i h1 h2 => by omega, hstores, hc.frame, hreads, fun _ => hiff.symm, fun h => absurd hok h⟩
  · rw [if_neg hres]
    constructor
    · exact hle
    · intro i hi
      obtain ⟨a, ha, hmem⟩ := hc.copied i hi
      refine ⟨a, ha, ?_⟩
      rw [← hmem]
      exact fill_of_not (by omega)
    · intro i h1 h2
      exact fill_of_mem (by omega)
    · intro x hx
      obtain hx | hx := List.mem_append.1 hx
      · have := hstores x hx
        omega
      · have := List.mem_range'_1.1 hx
        omega
    · intro x hx
      calc fill c.mem (kto + (n.toNat - res)) res 0 x = c.mem x := fill_of_not (by omega)
        _ = mem x := hc.frame x (by dsimp only; omega)
    · exact hreads
    · intro _
      exact hiff.symm
    · intro h
      exact absurd hok h

theorem inlineCopyFromUser_spec (s : UserSpace) (mem : Mem) (kto : Nat) (src n : BitVec 64) :
    CopySpec s mem kto src n (inlineCopyFromUser s mem kto src n) := by
  by_cases hok : AccessOk src n
  · exact inlineCopyFromUser_of_accessOk hok
  · rw [inlineCopyFromUser, if_neg hok]
    constructor
    · exact Nat.le_refl _
    · intro i hi
      omega
    · intro i h1 h2
      exact fill_of_mem (by omega)
    · intro x hx
      exact List.mem_range'_1.1 hx
    · intro x hx
      exact fill_of_not hx
    · intro rd hrd
      cases hrd
    · intro hn
      exact ⟨fun h => absurd h (Nat.ne_of_gt hn), fun h => absurd h.1 hok⟩
    · intro _
      rfl

/-- The contract, for every user space, every address and every size that passes `check_copy_size`. -/
theorem copyFromUser_spec (s : UserSpace) (mem : Mem) (sz : Int) (kto : Nat) (src n : BitVec 64)
    (hsize : checkCopySize sz n = true) : CopySpec s mem kto src n (copyFromUser s mem sz kto src n) := by
  rw [copyFromUser, if_pos hsize]
  exact inlineCopyFromUser_spec s mem kto src n

def onePageSpace : UserSpace where
  frame := fun page => if page = 1 then some 5 else none
  ram := fun a => UInt8.ofNat a

/-- Six bytes from the end of page 1 on: two are copied and four are cleared. -/
theorem copyFromUser_spec_onePage :
    checkCopySize 128 6 = true ∧ (copyFromUser onePageSpace (fun _ => 1) 128 1000 8190 6).1 = 4 ∧
    CopySpec onePageSpace (fun _ => 1) 1000 8190 6 (copyFromUser onePageSpace (fun _ => 1) 128 1000 8190 6) :=
  ⟨by decide, by decide +kernel, copyFromUser_spec onePageSpace (fun _ => 1) 128 1000 8190 6 (by decide)⟩

end QuestOS
