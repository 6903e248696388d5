import Mathlib.Data.List.TakeWhile
import QuestOS.Print.Convert
import QuestOS.Print.Number
import QuestOS.Process.Meta
import QuestOS.Syscall.Copy

/-!
# The write system call

`ksys_write` of `syscall_implement.c`.  Its buffer has 128 bytes; the only bound on `count` is the check of the object
size in `copy_from_user`, which lets `count = 128` through, and the terminator is then stored behind the buffer.  The
text is printed as a string, so it ends at the first zero byte.  `ksysWrite_iff` says that nothing else goes wrong.

`printk` is ready and its level lets notices and errors pass, as at every system call; the output is given as the
characters that it hands to `putchar`.
-/

namespace QuestOS

open Bytes

/-- What the call finds: the number of the CPU, the name of the current process, and the place of `buffer` in the frame
of the function. -/
structure WriteEnv where
  cpu : BitVec 32
  name : Text
  name_length : name.bytes.length < processMaxNameLen
  nameAddr : BitVec 64
  nameAddr_ne : nameAddr ≠ 0
  buffer : BitVec 64
  buffer_ne : buffer ≠ 0

structure WriteResult where
  ret : Int
  stores : List Nat
  text : List UInt8

def stringAt (mem : Mem) (a n : Nat) : Text where
  bytes := ((List.range n).map fun i => mem (a + i)).takeWhile (· ≠ 0)
  nul_free := by
    intro h
    simpa using List.mem_takeWhile_imp h

def failedFormat : Text where
  bytes := ch '%' :: ch 's' :: (", copy_from_user failed\n".toList.map ch)
  nul_free := by decide

def noticeFormat : Text where
  bytes := "cpu[".toList.map ch ++ ch '%' :: ch 'd' :: ("]: ".toList.map ch ++ [ch '%', ch 's'])
  nul_free := by decide

def WriteEnv.cpuArg (env : WriteEnv) : Arg := { word := env.cpu.signExtend 64, text := ⟨[], nul_free_nil⟩ }

def WriteEnv.nameArg (env : WriteEnv) : Arg := { word := env.nameAddr, text := env.name }

/-- `ksys_write`; the copy leaves a NUL at `buffer[count]`, so the string that is printed has at most `count` bytes. -/
def ksysWrite (env : WriteEnv) (s : UserSpace) (mem : Mem) (_fd : BitVec 32) (buf count : BitVec 64) : Option WriteResult :=
  let (left, c) := copyFromUser s mem 128 env.buffer.toNat buf count
  if left ≠ 0 then do
    let p ← myprintf failedFormat [env.nameArg]
    some { ret := -14, stores := c.stores, text := p.out }
  else do
    let mem := write c.mem (env.buffer.toNat + count.toNat) [0]
    let string : Arg := { word := env.buffer, text := stringAt mem env.buffer.toNat count.toNat }
    let p ← myprintf noticeFormat [env.cpuArg, string]
    some { ret := count.toInt, stores := c.stores ++ [env.buffer.toNat + count.toNat], text := p.out }

/-! ### What the call is for -/

def UserSpace.byte (s : UserSpace) (u : Nat) : Option UInt8 := if u < 2 ^ 48 then (s.translate u).map s.ram else none

def UserSpace.bytes (s : UserSpace) : (src n : Nat) → Option (List UInt8)
  | _, 0 => some []
  | src, n + 1 => (s.byte src).bind fun b => (s.bytes (src + 1) n).map (b :: ·)

def WriteEnv.cpuPrefix (env : WriteEnv) : List UInt8 :=
  "cpu[".toList.map ch ++ (integerText { bareDirective with flags.sign := true } 10 env.cpuArg).getD [] ++ "]: ".toList.map ch

def WriteEnv.failedText (env : WriteEnv) : List UInt8 := env.name.bytes ++ ", copy_from_user failed\n".toList.map ch

structure WriteSpec (env : WriteEnv) (s : UserSpace) (buf count : BitVec 64) (r : WriteResult) : Prop where
  stores : ∀ x ∈ r.stores, env.buffer.toNat ≤ x ∧ x < env.buffer.toNat + 128
  written : 0 ≤ r.ret →
    r.ret = count.toNat ∧ ∃ bytes, s.bytes buf.toNat count.toNat = some bytes ∧ r.text = env.cpuPrefix ++ bytes
  fault : s.bytes buf.toNat count.toNat = none → r.ret = -14 ∧ r.text = env.failedText

/-- If the copy succeeds, the buffer has room for the terminator, and the terminator is the only zero byte. -/
def Writable (s : UserSpace) (buf count : BitVec 64) : Prop :=
  count.toNat ≤ 128 → ∀ bytes, s.bytes buf.toNat count.toNat = some bytes → count.toNat < 128 ∧ 0 ∉ bytes

variable {env : WriteEnv} {s : UserSpace} {mem : Mem} {buf count : BitVec 64}

/-! ### The texts -/

theorem stringBytes_nameArg (env : WriteEnv) : stringBytes env.nameArg = env.name.bytes := if_neg env.nameAddr_ne

theorem length_nameArg (env : WriteEnv) : (stringBytes env.nameArg).length < 2 ^ 31 := by
  have := env.name_length
  rw [stringBytes_nameArg]
  unfold processMaxNameLen at this
  omega

theorem myprintf_failed (env : WriteEnv) : (myprintf failedFormat [env.nameArg]).map (·.out) = some env.failedText := by
  rw [myprintf, failedFormat, myprintfLoop_string rfl (length_nameArg env), myprintfLoop_literal (by decide),
    stringBytes_nameArg]
  rfl

theorem exists_integerText (a : Arg) : ∃ text, integerText { bareDirective with flags.sign := true } 10 a = some text :=
  Option.isSome_iff_exists.1 (number_isSome _ (.inr (.inl rfl)) _ _ _)

theorem myprintf_notice (env : WriteEnv) {string : Arg} (hnull : string.word ≠ 0) (hlen : string.text.bytes.length < 2 ^ 31) :
    (myprintf noticeFormat [env.cpuArg, string]).map (·.out) = some (env.cpuPrefix ++ string.text.bytes) := by
  have hbytes : stringBytes string = string.text.bytes := if_neg hnull
  obtain ⟨text, hint⟩ := exists_integerText env.cpuArg
  rw [myprintf, noticeFormat, myprintfLoop_append (by decide), myprintfLoop_decimal rfl hint,
    myprintfLoop_append (by decide), myprintfLoop_string rfl (by rwa [hbytes]), myprintfLoop, hbytes, WriteEnv.cpuPrefix, hint]
  simp [Printer.emit]

/-! ### The copy -/

theorem byte_eq_some_iff {u : Nat} {b : UInt8} :
    s.byte u = some b ↔ u < 2 ^ 48 ∧ ∃ a, s.translate u = some a ∧ b = s.ram a := by
  rw [UserSpace.byte]
  split
  · next hu =>
    rw [and_iff_right hu, Option.map_eq_some_iff]
    simp only [eq_comm]
  · next hu =>
    constructor
    · intro h
      cases h
    · intro h
      exact absurd h.1 hu

theorem bytes_eq_some_iff {src n : Nat} {l : List UInt8} :
    s.bytes src n = some l ↔ l.length = n ∧ ∀ i, (h : i < l.length) → s.byte (src + i) = some l[i] := by
  induction n generalizing src l with
  | zero =>
    rw [UserSpace.bytes, Option.some.injEq, List.length_eq_zero_iff, eq_comm]
    refine ⟨fun h => ⟨h, fun i hi => ?_⟩, fun h => h.1⟩
    subst h
    cases hi
  | succ n ih =>
    rw [UserSpace.bytes, Option.bind_eq_some_iff]
    constructor
    · rintro ⟨b, hb, h⟩
      obtain ⟨l', hl', rfl⟩ := Option.map_eq_some_iff.1 h
      obtain ⟨hlen, hget⟩ := ih.1 hl'
      refine ⟨congrArg Nat.succ hlen, fun i hi => ?_⟩
      cases i with
      | zero => exact hb
      | succ i =>
        rw [← Nat.add_assoc, Nat.add_right_comm]
        exact hget i (Nat.lt_of_succ_lt_succ hi)
    · rintro ⟨hlen, hget⟩
      cases l with
      | nil => cases hlen
      | cons b l =>
        refine ⟨b, hget 0 (Nat.succ_pos _), Option.map_eq_some_iff.2 ⟨l, ih.2 ⟨Nat.succ.inj hlen, fun i hi => ?_⟩, rfl⟩⟩
        have := hget (i + 1) (Nat.succ_lt_succ hi)
        rwa [← Nat.add_assoc, Nat.add_right_comm] at this

theorem exists_bytes {src n : Nat} (h : ∀ i < n, ∃ b, s.byte (src + i) = some b) : ∃ l, s.bytes src n = some l := by
  induction n generalizing src with
  | zero => exact ⟨[], rfl⟩
  | succ n ih =>
    obtain ⟨b, hb⟩ := h 0 (Nat.succ_pos n)
    have hrest : ∀ i < n, ∃ b, s.byte (src + 1 + i) = some b := by
      intro i hi
      rw [Nat.add_right_comm]
      exact h (i + 1) (Nat.succ_lt_succ hi)
    obtain ⟨l, hl⟩ := ih hrest
    rw [Nat.add_zero] at hb
    exact ⟨b :: l, by rw [UserSpace.bytes, hb, Option.bind_some, hl, Option.map_some]⟩

theorem accessOk_readable_iff (hcount : 0 < count.toNat) (hle : count.toNat ≤ 128) :
    AccessOk buf count ∧ s.Readable buf.toNat count.toNat ↔ ∃ l, s.bytes buf.toNat count.toNat = some l := by
  constructor
  · rintro ⟨⟨h1, h2⟩, hread⟩
    refine exists_bytes fun i hi => ?_
    obtain ⟨f, hf⟩ := Option.isSome_iff_exists.1 (hread _ ⟨i, hi, rfl⟩)
    have ha : s.translate (buf.toNat + i) = some (f.toNat * 4096 + (buf.toNat + i) % 4096) := by
      rw [UserSpace.translate, hf, Option.map_some]
    exact ⟨_, byte_eq_some_iff.2 ⟨by omega, _, ha, rfl⟩⟩
  · rintro ⟨l, hl⟩
    obtain ⟨hlen, hget⟩ := bytes_eq_some_iff.1 hl
    refine ⟨⟨by omega, ?_⟩, ?_⟩
    · obtain ⟨hlt, -⟩ := byte_eq_some_iff.1 (hget (count.toNat - 1) (by omega))
      omega
    · rintro page ⟨i, hi, rfl⟩
      obtain ⟨-, a, ha, -⟩ := byte_eq_some_iff.1 (hget i (by omega))
      obtain ⟨f, hf, -⟩ := Option.map_eq_some_iff.1 ha
      exact Option.isSome_of_mem hf

theorem checkCopySize_128 : checkCopySize 128 count = true ↔ count.toNat ≤ 128 := by
  unfold checkCopySize
  split
  · simp
    omega
  · simp
    omega

/-- The copy to the buffer succeeds if and only if there are at most 128 bytes and they can all be read. -/
theorem copy_eq_zero_iff (mem : Mem) (kto : Nat) :
    (copyFromUser s mem 128 kto buf count).1 = 0 ↔ count.toNat ≤ 128 ∧ ∃ l, s.bytes buf.toNat count.toNat = some l := by
  unfold copyFromUser
  by_cases hle : count.toNat ≤ 128
  · rw [if_pos (checkCopySize_128.2 hle), and_iff_right hle]
    have hspec := inlineCopyFromUser_spec s mem kto buf count
    obtain h0 | hpos := Nat.eq_zero_or_pos count.toNat
    · have hzero := hspec.le
      rw [h0] at hzero
      rw [h0]
      exact ⟨fun _ => ⟨[], rfl⟩, fun _ => Nat.le_zero.1 hzero⟩
    · rw [hspec.complete hpos, accessOk_readable_iff hpos hle]
  · rw [if_neg (fun h => hle (checkCopySize_128.1 h))]
    exact ⟨fun h => absurd (show count.toNat = 0 from h) (by omega), fun h => absurd h.1 hle⟩

/-! ### The call -/

theorem copy_stores (s : UserSpace) (mem : Mem) (kto : Nat) (buf count : BitVec 64) :
    ∀ x ∈ (copyFromUser s mem 128 kto buf count).2.stores, kto ≤ x ∧ x < kto + min count.toNat 128 := by
  intro x hx
  unfold copyFromUser at hx
  by_cases hle : count.toNat ≤ 128
  · rw [if_pos (checkCopySize_128.2 hle)] at hx
    rw [Nat.min_eq_left hle]
    exact (inlineCopyFromUser_spec s mem kto buf count).stores x hx
  · rw [if_neg (fun h => hle (checkCopySize_128.1 h))] at hx
    cases hx

theorem ksysWrite_failed (env : WriteEnv) (mem : Mem) (fd : BitVec 32)
    (h : ¬ (count.toNat ≤ 128 ∧ ∃ l, s.bytes buf.toNat count.toNat = some l)) :
    ∃ r, ksysWrite env s mem fd buf count = some r ∧ r.ret = -14 ∧ r.text = env.failedText ∧
      ∀ x ∈ r.stores, env.buffer.toNat ≤ x ∧ x < env.buffer.toNat + 128 := by
  have hstores := copy_stores s mem env.buffer.toNat buf count
  have hleft := (not_congr (copy_eq_zero_iff mem env.buffer.toNat)).2 h
  obtain ⟨p, hp, htext⟩ := Option.map_eq_some_iff.1 (myprintf_failed env)
  rw [ksysWrite]
  generalize copyFromUser s mem 128 env.buffer.toNat buf count = copied at hstores hleft
  obtain ⟨left, c⟩ := copied
  dsimp only at hstores hleft ⊢
  rw [if_pos hleft, hp]
  refine ⟨_, rfl, rfl, htext, fun x hx => ?_⟩
  have := hstores x hx
  omega

/-- What the string in the buffer is, once the copy has succeeded and the terminator is stored. -/
theorem stringAt_copied {kto : Nat} {c : Copied} {l : List UInt8} (hl : s.bytes buf.toNat count.toNat = some l)
    (hcopied : ∀ i < count.toNat, ∃ a, s.translate (buf.toNat + i) = some a ∧ c.mem (kto + i) = s.ram a) :
    (stringAt (write c.mem (kto + count.toNat) [0]) kto count.toNat).bytes = l.takeWhile (· ≠ 0) := by
  obtain ⟨hlen, hget⟩ := bytes_eq_some_iff.1 hl
  have hmap : (List.range count.toNat).map (fun i => write c.mem (kto + count.toNat) [0] (kto + i)) = l := by
    apply List.ext_getElem
    · rw [List.length_map, List.length_range, hlen]
    · intro i h1 h2
      obtain ⟨a, ha, hmem⟩ := hcopied i (by omega)
      obtain ⟨-, a', ha', hbyte⟩ := byte_eq_some_iff.1 (hget i h2)
      obtain rfl : a = a' := Option.some.inj (ha.symm.trans ha')
      rw [List.getElem_map, List.getElem_range, hbyte, ← hmem]
      exact (write_wrote _ _ _).frame _ (by omega)
  calc (stringAt (write c.mem (kto + count.toNat) [0]) kto count.toNat).bytes
      = ((List.range count.toNat).map fun i => write c.mem (kto + count.toNat) [0] (kto + i)).takeWhile (· ≠ 0) := rfl
    _ = l.takeWhile (· ≠ 0) := by rw [hmap]

theorem ksysWrite_copied (env : WriteEnv) (mem : Mem) (fd : BitVec 32) (hle : count.toNat ≤ 128) {l : List UInt8}
    (hl : s.bytes buf.toNat count.toNat = some l) :
    ∃ r, ksysWrite env s mem fd buf count = some r ∧ r.ret = count.toNat ∧ r.text = env.cpuPrefix ++ l.takeWhile (· ≠ 0) ∧
      env.buffer.toNat + count.toNat ∈ r.stores ∧
      ∀ x ∈ r.stores, env.buffer.toNat ≤ x ∧ x ≤ env.buffer.toNat + count.toNat := by
  have hstores := copy_stores s mem env.buffer.toNat buf count
  have hleft := (copy_eq_zero_iff mem env.buffer.toNat).2 ⟨hle, l, hl⟩
  have hcopied : ∀ i < count.toNat, ∃ a, s.translate (buf.toNat + i) = some a ∧
      (copyFromUser s mem 128 env.buffer.toNat buf count).2.mem (env.buffer.toNat + i) = s.ram a := by
    intro i hi
    rw [copyFromUser, if_pos (checkCopySize_128.2 hle)] at hleft ⊢
    exact (inlineCopyFromUser_spec s mem env.buffer.toNat buf count).copied i (by omega)
  rw [ksysWrite]
  generalize copyFromUser s mem 128 env.buffer.toNat buf count = copied at hstores hleft hcopied
  obtain ⟨left, c⟩ := copied
  dsimp only at hstores hleft hcopied ⊢
  have hstring := stringAt_copied hl hcopied
  generalize stringAt (write c.mem (env.buffer.toNat + count.toNat) [0]) env.buffer.toNat count.toNat = text at hstring
  have hlen : text.bytes.length < 2 ^ 31 := by
    have h1 := (List.takeWhile_sublist (· ≠ 0) (l := l)).length_le
    have h2 := (bytes_eq_some_iff.1 hl).1
    rw [hstring]
    omega
  obtain ⟨p, hp, htext⟩ := Option.map_eq_some_iff.1
    (myprintf_notice env (show Arg.word { word := env.buffer, text } ≠ 0 from env.buffer_ne) hlen)
  rw [if_neg (not_not_intro hleft), hp]
  refine ⟨_, rfl, ?_, ?_, List.mem_append_right _ List.mem_cons_self, ?_⟩
  · exact BitVec.toInt_eq_toNat_of_lt (by omega)
  · rw [← hstring]
    exact htext
  · intro x hx
    obtain hx | hx := List.mem_append.1 hx
    · have := hstores x hx
      omega
    · rw [List.mem_singleton.1 hx]
      omega

/-- Whatever the arguments, the call returns, and stores at most one byte behind the buffer. -/
theorem ksysWrite_returns (env : WriteEnv) (s : UserSpace) (mem : Mem) (fd : BitVec 32) (buf count : BitVec 64) :
    ∃ r, ksysWrite env s mem fd buf count = some r ∧
      ∀ x ∈ r.stores, env.buffer.toNat ≤ x ∧ x ≤ env.buffer.toNat + 128 := by
  by_cases h : count.toNat ≤ 128 ∧ ∃ l, s.bytes buf.toNat count.toNat = some l
  · obtain ⟨hle, l, hl⟩ := h
    obtain ⟨r, hr, -, -, -, hstores⟩ := ksysWrite_copied env mem fd hle hl
    refine ⟨r, hr, fun x hx => ?_⟩
    have := hstores x hx
    omega
  · obtain ⟨r, hr, -, -, hstores⟩ := ksysWrite_failed env mem fd h
    refine ⟨r, hr, fun x hx => ?_⟩
    have := hstores x hx
    omega

/-- For every call: it does what it is for if and only if a copy that succeeds leaves room for the terminator and has no
zero byte. -/
theorem ksysWrite_iff (env : WriteEnv) (s : UserSpace) (mem : Mem) (fd : BitVec 32) (buf count : BitVec 64) :
    ∃ r, ksysWrite env s mem fd buf count = some r ∧ (WriteSpec env s buf count r ↔ Writable s buf count) := by
  by_cases h : count.toNat ≤ 128 ∧ ∃ l, s.bytes buf.toNat count.toNat = some l
  · obtain ⟨hle, l, hl⟩ := h
    obtain ⟨r, hr, hret, htext, hmem, hstores⟩ := ksysWrite_copied env mem fd hle hl
    refine ⟨r, hr, ?_, ?_⟩
    · intro hspec _ l' hl'
      obtain rfl : l = l' := Option.some.inj (hl.symm.trans hl')
      obtain ⟨-, l', hl', htext'⟩ := hspec.written (by omega)
      obtain rfl : l = l' := Option.some.inj (hl.symm.trans hl')
      have hall : l.takeWhile (· ≠ 0) = l := List.append_cancel_left (htext.symm.trans htext')
      refine ⟨?_, fun h0 => ?_⟩
      · have := hspec.stores _ hmem
        omega
      · simpa using List.takeWhile_eq_self_iff.1 hall 0 h0
    · intro hok
      obtain ⟨hlt, h0⟩ := hok hle l hl
      have hall : l.takeWhile (· ≠ 0) = l := by
        refine List.takeWhile_eq_self_iff.2 fun b hb => decide_eq_true ?_
        rintro rfl
        exact h0 hb
      rw [hall] at htext
      constructor
      · intro x hx
        have := hstores x hx
        omega
      · intro _
        exact ⟨hret, l, hl, htext⟩
      · intro hnone
        rw [hnone] at hl
        cases hl
  · obtain ⟨r, hr, hret, htext, hstores⟩ := ksysWrite_failed env mem fd h
    refine ⟨r, hr, fun _ hle l hl => absurd ⟨hle, l, hl⟩ h, fun _ => ?_⟩
    exact ⟨hstores, fun h0 => by omega, fun _ => ⟨hret, htext⟩⟩

def letterSpace : UserSpace where
  frame := fun page => if page = 1 then some 5 else none
  ram := fun _ => ch 'a'

def writeEnv : WriteEnv where
  cpu := 0
  name := ⟨[ch 'p'], by decide⟩
  name_length := by decide
  nameAddr := 8
  nameAddr_ne := by decide
  buffer := 0x10000
  buffer_ne := by decide

/-- Writing 128 bytes stores behind the buffer. -/
theorem ksysWrite_128 : ¬ ∃ r, ksysWrite writeEnv letterSpace (fun _ => 0) 1 0x1000#64 128#64 = some r ∧
    WriteSpec writeEnv letterSpace 0x1000#64 128#64 r := by
  rintro ⟨r, hr, hspec⟩
  have hle : (128#64).toNat ≤ 128 := by decide
  have hl : letterSpace.bytes (0x1000#64).toNat (128#64).toNat = some (List.replicate 128 (ch 'a')) := by decide +kernel
  obtain ⟨r', hr', -, -, hmem, -⟩ := ksysWrite_copied writeEnv (fun _ => 0) 1 hle hl
  obtain rfl : r = r' := Option.some.inj (hr.symm.trans hr')
  have hlt : (128#64).toNat < 128 := Nat.lt_of_add_lt_add_left (hspec.stores _ hmem).2
  exact absurd hlt (by decide)

end QuestOS
