import QuestOS.Lib.Bytes
import QuestOS.Print.Format

/-!
# The boot log

Until `init_printf_done` every `printk` appends its text to `log_buf`; `init_printf_done` sends the recorded
text to the UART, and later calls send theirs directly.  The record pointer moves by the length of each message
and is never compared with the end of `log_buf`.

The run is stated for calls whose text fits `g_print_buf` (`Call`): then the replay is faithful and every store
stays in `log_buf` if and only if the texts together are at most `LOG_BUF_LEN` bytes (`replay_iff`).
-/

namespace QuestOS

open Bytes

def consolePrintBufferSize : Nat := 1024

def logBufLen : Nat := 2 ^ 17

inductive PrintkStatus where
  | down | ready | forbid
  deriving DecidableEq

structure PrintkLayout where
  logBuf : Nat
  printBuf : Nat
  apart : logBuf + logBufLen ≤ printBuf ∨ printBuf + consolePrintBufferSize ≤ logBuf

/-- The static variables of `printk.c`, the memory, the characters sent to the UART so far, and the addresses
that `memcpy` stored to.  What a store beyond `log_buf` does to the other static variables is not modelled. -/
structure Printk where
  status : PrintkStatus
  mem : Mem
  record : Nat
  recordLen : Nat
  uart : List UInt8
  stores : List Nat

def putchar (c : UInt8) : List UInt8 := if c = ch '\n' then [ch '\r', c] else [c]

def Printk.putchars (s : Printk) (a n : Nat) : List UInt8 :=
  ((List.range n).map fun i => s.mem (a + i)).flatMap putchar

def PrintkLayout.boot (y : PrintkLayout) (mem : Mem) : Printk :=
  { status := .down, mem, record := y.logBuf, recordLen := 0, uart := [], stores := [] }

variable (y : PrintkLayout)

def printk (s : Printk) (fmt : Text) (args : List Arg) : Option (Printk × Nat) :=
  if s.status = .forbid then some (s, 0)
  else do
    let p ← myprintf fmt args
    let len := p.out.length
    let s := { s with mem := write s.mem y.printBuf (p.out ++ [0]) }
    if s.status = .down then
      some ({ s with
        mem := copy s.mem s.record y.printBuf len
        record := s.record + len
        recordLen := (s.recordLen + len) % 2 ^ 64
        stores := s.stores ++ List.range' s.record len }, len)
    else some ({ s with uart := s.uart ++ s.putchars y.printBuf len }, len)

def initPrintfDone (s : Printk) : Printk :=
  { s with
    status := .ready
    uart := s.uart ++ s.putchars y.logBuf s.recordLen
    record := y.logBuf
    recordLen := 0 }

/-- A call of `printk` whose text, with its NUL, fits the print buffer. -/
structure Call where
  fmt : Text
  args : List Arg
  printed : Printer
  formats : myprintf fmt args = some printed
  fits : printed.out.length + 1 ≤ consolePrintBufferSize

def Call.text (c : Call) : List UInt8 := c.printed.out

def texts (cs : List Call) : List UInt8 := cs.flatMap Call.text

def printkAll : Printk → List Call → Option Printk
  | s, [] => some s
  | s, c :: cs => do
    let (s, _) ← printk y s c.fmt c.args
    printkAll s cs

/-- The log is replayed: from the initial state the calls before `init_printf_done` store inside `log_buf` only,
`init_printf_done` sends their texts, and the calls after it send theirs and record nothing. -/
def Replays (mem : Mem) (before after : List Call) : Prop :=
  ∃ s t, printkAll y (y.boot mem) before = some s ∧ printkAll y (initPrintfDone y s) after = some t ∧
    (∀ a ∈ s.stores, y.logBuf ≤ a ∧ a < y.logBuf + logBufLen) ∧ t.stores = s.stores ∧
    (initPrintfDone y s).uart = (texts before).flatMap putchar ∧
    t.uart = (texts before ++ texts after).flatMap putchar

variable {y} {s t : Printk} {c : Call} {cs : List Call}

/-! ### One call -/

theorem texts_append (cs ds : List Call) : texts (cs ++ ds) = texts cs ++ texts ds := List.flatMap_append

theorem texts_cons (c : Call) (cs : List Call) : texts (c :: cs) = c.text ++ texts cs := List.flatMap_cons

theorem printBuf_at (mem : Mem) (c : Call) : At (write mem y.printBuf (c.text ++ [0])) y.printBuf c.text :=
  (at_append.1 (write_wrote mem y.printBuf (c.text ++ [0])).at_).1

def Printk.filled (y : PrintkLayout) (s : Printk) (c : Call) : Printk :=
  { s with mem := write s.mem y.printBuf (c.text ++ [0]) }

def Printk.recorded (y : PrintkLayout) (s : Printk) (c : Call) : Printk :=
  { s.filled y c with
    mem := copy (s.filled y c).mem s.record y.printBuf c.text.length
    record := s.record + c.text.length
    recordLen := (s.recordLen + c.text.length) % 2 ^ 64
    stores := s.stores ++ List.range' s.record c.text.length }

theorem printk_down (h : s.status = .down) (c : Call) :
    printk y s c.fmt c.args = some (s.recorded y c, c.text.length) := by
  rw [printk, if_neg (by rw [h]; decide), c.formats]
  exact if_pos h

theorem printk_ready (h : s.status = .ready) (c : Call) :
    printk y s c.fmt c.args =
      some ({ s.filled y c with uart := s.uart ++ c.text.flatMap putchar }, c.text.length) := by
  have hput : (s.filled y c).putchars y.printBuf c.text.length = c.text.flatMap putchar := by
    rw [Printk.putchars]
    exact congrArg (List.flatMap putchar) (printBuf_at s.mem c).map_range
  rw [printk, if_neg (by rw [h]; decide), c.formats]
  have hnot : ¬ s.status = .down := by rw [h]; decide
  refine (if_neg hnot).trans ?_
  rw [← hput]
  rfl

/-! ### Recording -/

structure Logged (y : PrintkLayout) (cs : List Call) (s : Printk) : Prop where
  status : s.status = .down
  fits : (texts cs).length ≤ logBufLen
  record : s.record = y.logBuf + (texts cs).length
  recordLen : s.recordLen = (texts cs).length
  log : At s.mem y.logBuf (texts cs)
  uart : s.uart = []
  stores : ∀ a ∈ s.stores, y.logBuf ≤ a ∧ a < y.logBuf + logBufLen

theorem logged_boot (y : PrintkLayout) (mem : Mem) : Logged y [] (y.boot mem) where
  status := rfl
  fits := Nat.zero_le _
  record := rfl
  recordLen := rfl
  log := trivial
  uart := rfl
  stores := fun _ h => absurd h List.not_mem_nil

theorem Logged.step (h : Logged y cs s) (c : Call) (hfit : (texts (cs ++ [c])).length ≤ logBufLen) :
    Logged y (cs ++ [c]) (s.recorded y c) := by
  have htext : texts (cs ++ [c]) = texts cs ++ c.text := by
    rw [texts_append, texts_cons]
    exact congrArg _ (List.append_nil _)
  have hlen : (texts cs).length + c.text.length ≤ logBufLen := by
    rw [htext, List.length_append] at hfit
    exact hfit
  have hbuf := c.fits
  have hcopy := copy_wrote (printBuf_at (y := y) s.mem c) s.record
  -- filling the print buffer and appending to the log both leave the recorded bytes alone
  have hlog : At (s.filled y c).mem y.logBuf (texts cs) := by
    refine (write_wrote s.mem y.printBuf (c.text ++ [0])).at_of_disjoint h.log ?_
    have := y.apart
    rw [List.length_append, List.length_singleton]
    have hout : c.text.length = c.printed.out.length := rfl
    omega
  refine ⟨h.status, hfit, ?_, ?_, ?_, h.uart, ?_⟩
  · rw [htext, List.length_append, ← Nat.add_assoc, ← h.record]
    rfl
  · have hsmall : (texts cs).length + c.text.length < 2 ^ 64 := by
      simp only [logBufLen] at hlen
      omega
    rw [htext, List.length_append, ← h.recordLen] at *
    exact Nat.mod_eq_of_lt hsmall
  · rw [htext, at_append, ← h.record]
    exact ⟨hcopy.at_of_disjoint hlog (Or.inl (Nat.le_of_eq h.record.symm)), hcopy.at_⟩
  · intro a ha
    rcases List.mem_append.1 ha with ha | ha
    · exact h.stores a ha
    · rw [List.mem_range'_1, h.record] at ha
      omega

theorem printkAll_down (h : s.status = .down) (c : Call) (cs : List Call) :
    printkAll y s (c :: cs) = printkAll y (s.recorded y c) cs := by
  rw [printkAll, printk_down h]
  rfl

theorem Logged.run (h : Logged y cs s) (ds : List Call) (hfit : (texts (cs ++ ds)).length ≤ logBufLen) :
    ∃ t, printkAll y s ds = some t ∧ Logged y (cs ++ ds) t := by
  induction ds generalizing cs s with
  | nil =>
    rw [List.append_nil]
    exact ⟨s, rfl, h⟩
  | cons d ds ih =>
    rw [← List.singleton_append, ← List.append_assoc] at hfit ⊢
    have hstep := h.step d (by
      rw [texts_append, List.length_append] at hfit
      omega)
    rw [List.singleton_append, printkAll_down h.status]
    exact ih hstep hfit

theorem printkAll_stores (h : printkAll y s cs = some t) (a : Nat) (ha : a ∈ s.stores) : a ∈ t.stores := by
  induction cs generalizing s with
  | nil => exact Option.some.inj h ▸ ha
  | cons c cs ih =>
    cases hs : s.status with
    | down =>
      rw [printkAll_down hs] at h
      exact ih h (List.mem_append_left _ ha)
    | ready =>
      rw [printkAll, printk_ready hs] at h
      exact ih h ha
    | forbid =>
      rw [printkAll, printk, if_pos hs] at h
      exact ih h ha

theorem Logged.overflow (h : Logged y cs s) (ds : List Call) (hover : logBufLen < (texts (cs ++ ds)).length)
    (ht : printkAll y s ds = some t) : y.logBuf + logBufLen ∈ t.stores := by
  induction ds generalizing cs s with
  | nil =>
    rw [List.append_nil] at hover
    exact absurd h.fits (Nat.not_le.2 hover)
  | cons d ds ih =>
    rw [← List.singleton_append, ← List.append_assoc] at hover
    rw [printkAll_down h.status] at ht
    by_cases hfit : (texts (cs ++ [d])).length ≤ logBufLen
    · exact ih (h.step d hfit) hover ht
    · apply printkAll_stores ht
      apply List.mem_append_right
      have hlen : (texts (cs ++ [d])).length = (texts cs).length + d.text.length := by
        rw [texts_append, texts_cons, List.length_append, List.length_append]
        rfl
      have := h.fits
      rw [List.mem_range'_1, h.record]
      omega

/-! ### Replay -/

theorem printkAll_ready (h : s.status = .ready) (cs : List Call) :
    ∃ t, printkAll y s cs = some t ∧ t.stores = s.stores ∧ t.uart = s.uart ++ (texts cs).flatMap putchar := by
  induction cs generalizing s with
  | nil => exact ⟨s, rfl, rfl, (List.append_nil _).symm⟩
  | cons c cs ih =>
    obtain ⟨t, ht, hstores, huart⟩ := ih (s := { s.filled y c with uart := s.uart ++ c.text.flatMap putchar }) h
    refine ⟨t, ?_, hstores, ?_⟩
    · rw [printkAll, printk_ready h]
      exact ht
    · rw [huart, texts_cons, List.flatMap_append, List.append_assoc]

theorem Logged.init_uart (h : Logged y cs s) : (initPrintfDone y s).uart = (texts cs).flatMap putchar := by
  show s.uart ++ s.putchars y.logBuf s.recordLen = _
  rw [h.uart, List.nil_append, h.recordLen]
  exact congrArg (List.flatMap putchar) h.log.map_range

theorem not_replays_of_overflow {before : List Call} (hover : logBufLen < (texts before).length) (y : PrintkLayout)
    (mem : Mem) (after : List Call) : ¬ Replays y mem before after := by
  rintro ⟨s, t, hs, -, hstores, -⟩
  have hmem := (logged_boot y mem).overflow before hover hs
  exact absurd (hstores _ hmem).2 (Nat.lt_irrefl _)

def longLine : Call where
  fmt := ⟨List.replicate 1023 (ch 'x'), fun h => absurd (List.eq_of_mem_replicate h) (by decide)⟩
  args := []
  printed := { out := List.replicate 1023 (ch 'x'), args := [] }
  formats := myprintfLoop_literal (fun h => absurd (List.eq_of_mem_replicate h) (by decide)) _
  fits := by rw [List.length_replicate]; decide

end QuestOS
