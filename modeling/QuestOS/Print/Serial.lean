import QuestOS.Print.Log
import QuestOS.Smp.Spinlock

/-!
# Messages of several CPUs

`printk` between `spin_lock_irqsave` and `spin_unlock_irqrestore`, byte by byte.  All calls use `g_print_buf`, the record
pointer and the UART; the lock makes each of them what a call of `printk` alone does (`printk_serial`), so that the
characters of two messages are never mixed.
-/

namespace QuestOS

open Bytes Spinlock
open Relation (ReflTransGen)

inductive PrintPc
  | store (c : Call) (i : Nat)
  | memcpy (c : Call)
  | moveRecord (c : Call)
  | moveLen (c : Call)
  | put (c : Call) (i : Nat)
  | done

def printkStep (y : PrintkLayout) : PrintPc → Printk → Option (PrintPc × Printk)
  | .store c i, s =>
    if h : i < (c.text ++ [0]).length then
      some (.store c (i + 1), { s with mem := write s.mem (y.printBuf + i) [(c.text ++ [0])[i]] })
    else some (if s.status = .down then .memcpy c else .put c 0, s)
  | .memcpy c, s =>
    some (.moveRecord c, { s with
      mem := copy s.mem s.record y.printBuf c.text.length
      stores := s.stores ++ List.range' s.record c.text.length })
  | .moveRecord c, s => some (.moveLen c, { s with record := s.record + c.text.length })
  | .moveLen c, s => some (.done, { s with recordLen := (s.recordLen + c.text.length) % 2 ^ 64 })
  | .put c i, s =>
    if i < c.text.length then some (.put c (i + 1), { s with uart := s.uart ++ putchar (s.mem (y.printBuf + i)) })
    else none
  | .done, _ => none

def printkSection (y : PrintkLayout) : Spinlock.Section Call PrintPc Printk := ⟨(.store · 0), printkStep y⟩

def PrintInv (y : PrintkLayout) (c : Call) (r : Printk) : PrintPc → Printk → Prop
  | .store c' i, s => c' = c ∧ s = { r with mem := write r.mem y.printBuf ((c.text ++ [0]).take i) }
  | .memcpy c', s => c' = c ∧ r.status = .down ∧ s = r.filled y c
  | .moveRecord c', s => c' = c ∧ r.status = .down ∧
      s = { r.recorded y c with record := r.record, recordLen := r.recordLen }
  | .moveLen c', s => c' = c ∧ r.status = .down ∧ s = { r.recorded y c with recordLen := r.recordLen }
  | .put c' i, s => c' = c ∧ r.status ≠ .down ∧
      s = { r.filled y c with uart := r.uart ++ (c.text.take i).flatMap putchar }
  | .done, s => r.status = .down ∧ s = r.recorded y c

variable {y : PrintkLayout} {c : Call} {r s s' p : Printk} {b b' : PrintPc}

theorem write_take_succ (m : Mem) (a : Nat) {l : List UInt8} {i : Nat} (hi : i < l.length) :
    write (write m a (l.take i)) (a + i) [l[i]] = write m a (l.take (i + 1)) := by
  have hlen : (l.take i).length = i := List.length_take_of_le (Nat.le_of_lt hi)
  have hnext := write_wrote (write m a (l.take i)) (a + (l.take i).length) [l[i]]
  rw [hlen] at hnext
  refine ((write_wrote m a (l.take i)).append (by rwa [hlen])).unique ?_
  rw [List.take_append_getElem hi]
  exact write_wrote m a _

theorem PrintInv.step (h : PrintInv y c r b s) (hs : printkStep y b s = some (b', s')) : PrintInv y c r b' s' := by
  cases b with
  | store c' i =>
    obtain ⟨rfl, rfl⟩ := h
    simp only [printkStep] at hs
    split at hs
    · rename_i hi
      cases hs
      exact ⟨rfl, by rw [write_take_succ _ _ hi]⟩
    · rename_i hi
      cases hs
      have hall : (c'.text ++ [0]).take i = c'.text ++ [0] := List.take_of_length_le (Nat.le_of_not_lt hi)
      rw [hall]
      split
      · rename_i hd
        exact ⟨rfl, hd, rfl⟩
      · rename_i hd
        exact ⟨rfl, hd, by simp [Printk.filled]⟩
  | memcpy c' =>
    obtain ⟨rfl, hd, rfl⟩ := h
    cases hs
    exact ⟨rfl, hd, rfl⟩
  | moveRecord c' =>
    obtain ⟨rfl, hd, rfl⟩ := h
    cases hs
    exact ⟨rfl, hd, rfl⟩
  | moveLen c' =>
    obtain ⟨rfl, hd, rfl⟩ := h
    cases hs
    exact ⟨hd, rfl⟩
  | put c' i =>
    obtain ⟨rfl, hd, rfl⟩ := h
    simp only [printkStep] at hs
    split at hs
    · rename_i hi
      cases hs
      have hchar : (r.filled y c').mem (y.printBuf + i) = c'.text[i] := at_iff_getElem.1 (printBuf_at r.mem c') i hi
      refine ⟨rfl, hd, ?_⟩
      rw [← List.take_append_getElem hi, List.flatMap_append, ← List.append_assoc, ← hchar]
      simp
    · cases hs
  | done => cases hs

theorem PrintInv.steps (h : (printkSection y).Steps ((printkSection y).enter c, r) (b, s)) : PrintInv y c r b s := by
  have hall : ∀ q, (printkSection y).Steps ((printkSection y).enter c, r) q → PrintInv y c r q.1 q.2 := by
    intro q hq
    induction hq with
    | refl =>
      refine ⟨rfl, ?_⟩
      rw [List.take_zero, (write_wrote r.mem y.printBuf []).unique (.nil ..)]
    | tail _ hs ih => exact ih.step hs
  exact hall _ h

/-- At the end of the critical section the call has done what `printk` does. -/
theorem PrintInv.finished (hr : r.status ≠ .forbid) (h : PrintInv y c r b s) (hend : printkStep y b s = none) :
    s.status = r.status ∧ ∃ n, printk y r c.fmt c.args = some (s, n) := by
  cases b with
  | put c' i =>
    obtain ⟨rfl, hd, rfl⟩ := h
    have hready : r.status = .ready := by
      cases hst : r.status with
      | ready => rfl
      | down => exact absurd hst hd
      | forbid => exact absurd hst hr
    simp only [printkStep, ite_eq_right_iff, reduceCtorEq, imp_false, Nat.not_lt] at hend
    rw [List.take_of_length_le hend]
    exact ⟨rfl, _, printk_ready hready c'⟩
  | done =>
    obtain ⟨hd, rfl⟩ := h
    exact ⟨rfl, _, printk_down hd c⟩
  | store c' i =>
    simp only [printkStep] at hend
    split at hend <;> cases hend
  | _ => cases hend

/-- The part of its text that a call has printed. -/
theorem PrintInv.uart (hr : r.status = .ready) (h : PrintInv y c r b s) :
    ∃ part, part <+: c.text ∧ s.uart = r.uart ++ part.flatMap putchar := by
  cases b with
  | store c' i =>
    obtain ⟨rfl, rfl⟩ := h
    exact ⟨[], List.nil_prefix, (List.append_nil _).symm⟩
  | put c' i =>
    obtain ⟨rfl, -, rfl⟩ := h
    exact ⟨_, List.take_prefix i _, rfl⟩
  | done => cases hr.symm.trans h.1
  | _ => cases hr.symm.trans h.2.1

theorem printkAll_append {cs : List Call} (h : printkAll y p cs = some r) (hp : ∃ n, printk y r c.fmt c.args = some (s, n)) :
    printkAll y p (cs ++ [c]) = some s := by
  induction cs generalizing p with
  | nil =>
    cases h
    obtain ⟨n, hp⟩ := hp
    simp [printkAll, hp]
  | cons d cs ih =>
    simp only [printkAll, List.cons_append, Option.bind_eq_bind, Option.bind_eq_some_iff] at h ⊢
    obtain ⟨p, hp', h⟩ := h
    exact ⟨p, hp', ih h⟩

theorem printkAll_of_serial {cs : List Call} (hp : p.status ≠ .forbid) (h : Serial (printkSection y) p cs s) :
    s.status = p.status ∧ printkAll y p cs = some s := by
  induction h with
  | nil => exact ⟨rfl, rfl⟩
  | call _ hrun hend ih =>
    obtain ⟨hst, hprintk⟩ := (PrintInv.steps hrun).finished (ih.1 ▸ hp) hend
    exact ⟨hst.trans ih.1, printkAll_append ih.2 hprintk⟩

theorem uart_of_serial {cs : List Call} (hp : p.status = .ready) (h : Serial (printkSection y) p cs s) :
    s.uart = p.uart ++ (texts cs).flatMap putchar := by
  obtain ⟨-, hall⟩ := printkAll_of_serial (by rw [hp]; decide) h
  obtain ⟨t, ht, -, huart⟩ := printkAll_ready (y := y) hp cs
  rw [← huart, Option.some.inj (hall.symm.trans ht)]

end QuestOS
