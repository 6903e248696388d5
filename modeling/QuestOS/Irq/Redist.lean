import QuestOS.Smp.Bringup

/-!
# The redistributors

`gic_iterate_rdists` of `gic-v3.c` walks over the redistributor frames of each region and calls a function for each.
How long a frame is and which one is the last is read from its `GICR_TYPER`; the size of the window that
`gic_v3_init` maps is not looked at.

A region is described by what reads of its registers return.  A read outside of the window is `none`, and so is a walk
that has not ended within its fuel.
-/

namespace QuestOS.Gic

/-! ### The registers -/

def gicrMemmapSize : Nat := 0x100000
def gicrCtlr : Nat := 0x0000
def gicrTyper : Nat := 0x0008
def gicrPidr2 : Nat := 0xffe8
def gicrVpropbaser : Nat := 0x0070
def gicrVpendbaser : Nat := 0x0078
def sz64K : Nat := 0x10000
def sz128K : Nat := 0x20000
def negEnodev : Int := -19

/-- `struct redist_region`, with the values that reads at the offsets from `redist_base` return. -/
structure RedistRegion where
  read : Nat → BitVec 64
  singleRedist : Bool

def readU64 (r : RedistRegion) (off : Nat) : Option (BitVec 64) :=
  if off + 8 ≤ gicrMemmapSize then some (r.read off) else none

def readU32 (r : RedistRegion) (off : Nat) : Option (BitVec 32) :=
  if off + 4 ≤ gicrMemmapSize then some ((r.read off).setWidth 32) else none

def typerVlpis (typer : BitVec 64) : Bool := typer.getLsbD 1
def typerDirty (typer : BitVec 64) : Bool := typer.getLsbD 2
def typerDirectLpis (typer : BitVec 64) : Bool := typer.getLsbD 3
def typerLast (typer : BitVec 64) : Bool := typer.getLsbD 4
def typerRvpeid (typer : BitVec 64) : Bool := typer.getLsbD 7

def typerNrPpis (typer : BitVec 64) : Nat :=
  let ppinum := (typer >>> 27 &&& 0x1f).toNat
  if ppinum = 1 ∨ ppinum = 2 then 16 + ppinum * 32 else 16

/-! ### The walk -/

section Iterate

variable {σ : Type} (fn : Nat → RedistRegion → Nat → σ → Option (σ × Int)) (stride : Nat)

def rdistLoop (i : Nat) (r : RedistRegion) : Nat → Nat → σ → Option (σ × Int × List Int)
  | 0, _, _ => none
  | fuel + 1, ptr, s =>
    (readU64 r (ptr + gicrTyper)).bind fun typer =>
      (fn i r ptr s).bind fun (s, ret) =>
        if ret = 0 then some (s, ret, [ret])
        else if r.singleRedist then some (s, ret, [ret])
        else
          let next := if stride ≠ 0 then ptr + stride
            else ptr + sz64K * 2 + if typerVlpis typer then sz64K * 2 else 0
          if typerLast typer then some (s, ret, [ret])
          else (rdistLoop i r fuel next s).map fun (s, last, results) => (s, last, ret :: results)

def rdistRegionsLoop (fuel : Nat) : Nat → List RedistRegion → σ → Int → Option (σ × Int × List Int)
  | _, [], s, ret => some (s, if ret ≠ 0 then negEnodev else 0, [])
  | i, r :: regions, s, ret =>
    (readU32 r gicrPidr2).bind fun pidr2 =>
      if pidr2 &&& 0xf0 ≠ 0x30 ∧ pidr2 &&& 0xf0 ≠ 0x40 then some (s, if ret ≠ 0 then negEnodev else 0, [])
      else
        (rdistLoop fn stride i r fuel 0 s).bind fun (s, ret, results) =>
          if ret = 0 then some (s, 0, results)
          else (rdistRegionsLoop fuel (i + 1) regions s ret).map fun (s, v, more) => (s, v, results ++ more)

def gicIterateRdists (fuel : Nat) (regions : List RedistRegion) (s : σ) : Option (σ × Int × List Int) :=
  rdistRegionsLoop fn stride fuel 0 regions s negEnodev

end Iterate

/-! ### The functions that are called -/

/-- `gic_data.features`, `gic_data.ppi_nr` and the writes to registers, as offsets in a region. -/
structure Features where
  hasVlpis : Bool
  hasRvpeid : Bool
  hasDirectLpi : Bool
  hasVpendValidDirty : Bool
  ppiNr : Nat
  writes : List (Nat × Nat × BitVec 64)

def Features.update (f : Features) (typer : BitVec 64) (ctlr : BitVec 32) : Features :=
  let hasVlpis := f.hasVlpis && typerVlpis typer
  let hasRvpeid := f.hasRvpeid && typerRvpeid typer
  let hasDirectLpi := f.hasDirectLpi && (typerDirectLpis typer || ctlr.getLsbD 2 || hasRvpeid)
  let senseless := hasRvpeid && !hasVlpis
  { f with
    hasVlpis := hasVlpis && !senseless
    hasRvpeid := hasRvpeid && !senseless
    hasDirectLpi := hasDirectLpi && !senseless
    hasVpendValidDirty := f.hasVpendValidDirty && typerDirty typer
    ppiNr := min (typerNrPpis typer) f.ppiNr }

def bootTimeCleanup (i : Nat) (r : RedistRegion) (ptr : Nat) (f : Features) : Option Features := do
  let pend ← readU64 r (ptr + sz128K + gicrVpendbaser)
  let writes := if pend.getLsbD 63 then f.writes ++ [(i, ptr + sz128K + gicrVpendbaser, 1#64 <<< 61)] else f.writes
  let prop ← readU64 r (ptr + sz128K + gicrVpropbaser)
  some { f with writes := writes ++ [(i, ptr + sz128K + gicrVpropbaser, prop &&& ~~~(1#64 <<< 63))] }

def updateRdistProperties (i : Nat) (r : RedistRegion) (ptr : Nat) (f : Features) : Option (Features × Int) := do
  let typer ← readU64 r (ptr + gicrTyper)
  let ctlr ← readU32 r (ptr + gicrCtlr)
  let f ← if typerVlpis typer && typerRvpeid typer then bootTimeCleanup i r ptr f else some f
  some (f.update typer ctlr, 1)

/-- `__gic_populate_rdist` for a CPU with this affinity: the region and the offset of the frame that was found. -/
def populateRdist (aff : BitVec 32) (i : Nat) (r : RedistRegion) (ptr : Nat) (found : Option (Nat × Nat)) :
    Option (Option (Nat × Nat) × Int) := do
  let typer ← readU64 r (ptr + gicrTyper)
  if typer >>> 32 = aff.setWidth 64 then some (some (i, ptr), 0) else some (found, 1)

def redistributorStride : Nat := 0

def rdistRegs (contents : List (Nat → BitVec 64)) : List RedistRegion := contents.map fun read => ⟨read, false⟩

/-! ### Frames -/

variable {σ : Type} {r : RedistRegion} {regions : List RedistRegion} {i n m k ptr fuel : Nat} {s s' : σ} {ret : Int}
  {results : List Int}

def RedistRegion.typer (r : RedistRegion) (ptr : Nat) : BitVec 64 := r.read (ptr + gicrTyper)

/-- A function that is called for each frame, of which only the reads and the result matter: `need` is how many bytes
from the start of the frame it reads. -/
structure Callback (σ : Type) where
  fn : Nat → RedistRegion → Nat → σ → Option (σ × Int)
  result : Nat → RedistRegion → Nat → Int
  need : BitVec 64 → Nat
  inside : ∀ i r ptr s, ptr + need (r.typer ptr) ≤ gicrMemmapSize → ∃ s', fn i r ptr s = some (s', result i r ptr)
  outside : ∀ i r ptr s, gicrMemmapSize < ptr + need (r.typer ptr) → fn i r ptr s = none

def frameAt (r : RedistRegion) : Nat → Nat
  | 0 => 0
  | n + 1 => frameAt r n + if typerVlpis (r.typer (frameAt r n)) then 2 * sz128K else sz128K

variable (c : Callback σ)

def FrameInside (r : RedistRegion) (n : Nat) : Prop :=
  frameAt r n + 16 ≤ gicrMemmapSize ∧ frameAt r n + c.need (r.typer (frameAt r n)) ≤ gicrMemmapSize

def StopsAt (i : Nat) (r : RedistRegion) (n : Nat) : Prop :=
  typerLast (r.typer (frameAt r n)) = true ∨ c.result i r (frameAt r n) = 0

def Present (r : RedistRegion) : Prop :=
  (r.read gicrPidr2).setWidth 32 &&& 0xf0#32 = 0x30#32 ∨ (r.read gicrPidr2).setWidth 32 &&& 0xf0#32 = 0x40#32

def RegionFits (i : Nat) (r : RedistRegion) : Prop := ∃ n, StopsAt c i r n ∧ ∀ m ≤ n, FrameInside c r m

def Quiet (i : Nat) (r : RedistRegion) : Prop :=
  ∀ n, (∀ m < n, ¬ StopsAt c i r m) → c.result i r (frameAt r n) ≠ 0

instance (r : RedistRegion) : Decidable (Present r) := inferInstanceAs (Decidable (_ ∨ _))

def WalkFits : Nat → List RedistRegion → Prop
  | _, [] => True
  | i, r :: regions => Present r → RegionFits c i r ∧ (Quiet c i r → WalkFits (i + 1) regions)

/-- The walk ends without a read outside of the windows, and returns `0` iff one of the calls did. -/
def WalkOk (regions : List RedistRegion) (s : σ) : Prop :=
  ∃ fuel s' ret results, gicIterateRdists c.fn redistributorStride fuel regions s = some (s', ret, results) ∧
    (ret = 0 ↔ 0 ∈ results)

theorem readU64_typer (h : ptr + 16 ≤ gicrMemmapSize) : readU64 r (ptr + gicrTyper) = some (r.typer ptr) := by
  rw [readU64, if_pos (show ptr + gicrTyper + 8 ≤ _ from h)]
  rfl

theorem readU64_typer_eq_none (h : gicrMemmapSize < ptr + 16) : readU64 r (ptr + gicrTyper) = none :=
  if_neg (show ¬ ptr + gicrTyper + 8 ≤ gicrMemmapSize from Nat.not_le.mpr h)

theorem rdistLoop_frame (hsingle : r.singleRedist = false) (hin : FrameInside c r n) :
    ∃ s', rdistLoop c.fn redistributorStride i r (fuel + 1) (frameAt r n) s =
      if c.result i r (frameAt r n) = 0 ∨ typerLast (r.typer (frameAt r n)) = true then
        some (s', c.result i r (frameAt r n), [c.result i r (frameAt r n)])
      else (rdistLoop c.fn redistributorStride i r fuel (frameAt r (n + 1)) s').map fun (s, last, results) =>
        (s, last, c.result i r (frameAt r n) :: results) := by
  obtain ⟨s', hcall⟩ := c.inside i r (frameAt r n) s hin.2
  refine ⟨s', ?_⟩
  have hnext : (frameAt r n + sz64K * 2 + if typerVlpis (r.typer (frameAt r n)) then sz64K * 2 else 0) =
      frameAt r (n + 1) := by
    have hsize : sz64K * 2 = sz128K := rfl
    rw [frameAt]
    split <;> omega
  rw [rdistLoop, readU64_typer hin.1, Option.bind_some, hcall, Option.bind_some]
  dsimp only
  rw [hsingle, if_neg (show ¬ redistributorStride ≠ 0 from fun h => h rfl), hnext]
  by_cases hzero : c.result i r (frameAt r n) = 0
  · rw [if_pos hzero, if_pos (.inl hzero)]
  · rw [if_neg hzero, if_neg Bool.false_ne_true]
    by_cases hlast : typerLast (r.typer (frameAt r n)) = true
    · rw [if_pos hlast, if_pos (.inr hlast)]
    · rw [if_neg hlast, if_neg (not_or.mpr ⟨hzero, hlast⟩)]

theorem rdistLoop_eq_none (hin : ¬ FrameInside c r n) :
    rdistLoop c.fn redistributorStride i r fuel (frameAt r n) s = none := by
  cases fuel with
  | zero => rfl
  | succ fuel =>
    rw [rdistLoop]
    rcases Nat.lt_or_ge gicrMemmapSize (frameAt r n + 16) with hout | htyper
    · rw [readU64_typer_eq_none hout]
      rfl
    · have hneed : gicrMemmapSize < frameAt r n + c.need (r.typer (frameAt r n)) :=
        Nat.not_le.mp fun h => hin ⟨htyper, h⟩
      rw [readU64_typer htyper, Option.bind_some, c.outside i r _ s hneed]
      rfl

/-- Frames are at least 128 KiB apart, so at most eight of them start in the window. -/
theorem le_frameAt (r : RedistRegion) (n : Nat) : n * sz128K ≤ frameAt r n := by
  induction n with
  | zero => exact Nat.zero_le _
  | succ n ih =>
    rw [frameAt, Nat.succ_mul]
    split <;> omega

theorem FrameInside.lt {c : Callback σ} (h : FrameInside c r n) : n < 8 := by
  have hle := le_frameAt r n
  have hin := h.1
  have hsize : gicrMemmapSize = 0x100000 := rfl
  have hframe : n * sz128K = n * 0x20000 := rfl
  omega

/-- A walk that has a result ends at the first frame that stops it, all frames up to there are in the window, and the
result is that of the last call. -/
theorem rdistLoop_some (hsingle : r.singleRedist = false)
    (hrun : rdistLoop c.fn redistributorStride i r fuel (frameAt r m) s = some (s', ret, results)) :
    ∃ n, m ≤ n ∧ StopsAt c i r n ∧ (∀ k, m ≤ k → k ≤ n → FrameInside c r k) ∧
      (∀ k, m ≤ k → k < n → ¬ StopsAt c i r k) ∧ ret = c.result i r (frameAt r n) ∧ (ret = 0 ↔ 0 ∈ results) := by
  induction fuel generalizing m s s' results with
  | zero => cases hrun
  | succ fuel ih =>
    have hin : FrameInside c r m := by
      by_contra hout
      rw [rdistLoop_eq_none c hout] at hrun
      cases hrun
    obtain ⟨s₁, hround⟩ := rdistLoop_frame c hsingle hin
    rw [hround] at hrun
    split at hrun
    · rename_i hstop
      cases hrun
      refine ⟨m, Nat.le_refl _, hstop.symm, ?_, ?_, rfl, ?_⟩
      · intro k h₁ h₂
        obtain rfl : k = m := Nat.le_antisymm h₂ h₁
        exact hin
      · intro k h₁ h₂
        omega
      · rw [List.mem_singleton, eq_comm]
    · rename_i hgo
      obtain ⟨⟨s₂, last, more⟩, hrest, hq⟩ := Option.map_eq_some_iff.mp hrun
      obtain ⟨-, hq⟩ := Prod.mk.inj hq
      obtain ⟨rfl, rfl⟩ := Prod.mk.inj hq
      obtain ⟨n, hle, hstop, hinside, hfirst, hret, hzero⟩ := ih hrest
      refine ⟨n, by omega, hstop, ?_, ?_, hret, ?_⟩
      · intro k h₁ h₂
        rcases Nat.eq_or_lt_of_le h₁ with rfl | hlt
        · exact hin
        · exact hinside k hlt h₂
      · intro k h₁ h₂
        rcases Nat.eq_or_lt_of_le h₁ with rfl | hlt
        · exact fun h => hgo h.symm
        · exact hfirst k hlt h₂
      · rw [hzero, List.mem_cons, or_iff_right (fun h => hgo (.inl h.symm))]

/-- If the frames up to one that stops the walk are in the window, it has a result. -/
theorem rdistLoop_isSome (hsingle : r.singleRedist = false) (hstop : StopsAt c i r n) (hle : m ≤ n)
    (hin : ∀ k, m ≤ k → k ≤ n → FrameInside c r k) (hfuel : n < m + fuel) :
    ∃ res, rdistLoop c.fn redistributorStride i r fuel (frameAt r m) s = some res := by
  induction fuel generalizing m s with
  | zero => omega
  | succ fuel ih =>
    obtain ⟨s₁, hround⟩ := rdistLoop_frame c hsingle (hin m (Nat.le_refl _) hle)
    rw [hround]
    split
    · exact ⟨_, rfl⟩
    · rename_i hgo
      have hne : m ≠ n := by
        rintro rfl
        exact hgo hstop.symm
      obtain ⟨res, hres⟩ := ih (s := s₁) (show m + 1 ≤ n by omega) (fun k h₁ h₂ => hin k (by omega) h₂) (by omega)
      rw [hres]
      exact ⟨_, rfl⟩

/-- The walk of a region has a result iff the region fits; the result is `0` iff some frame gets this result. -/
theorem rdistLoop_region (hsingle : r.singleRedist = false) (hrun : rdistLoop c.fn redistributorStride i r fuel 0 s =
    some (s', ret, results)) : RegionFits c i r ∧ (ret ≠ 0 ↔ Quiet c i r) ∧ (ret = 0 ↔ 0 ∈ results) := by
  obtain ⟨n, -, hstop, hin, hfirst, hret, hzero⟩ := rdistLoop_some (m := 0) c hsingle hrun
  refine ⟨⟨n, hstop, fun m hm => hin m (Nat.zero_le _) hm⟩, ?_, hzero⟩
  rw [hret]
  constructor
  · intro hne k hk
    rcases Nat.lt_trichotomy k n with hlt | rfl | hgt
    · exact fun h => hfirst k (Nat.zero_le _) hlt (.inr h)
    · exact hne
    · exact absurd hstop (hk n hgt)
  · intro hquiet
    exact hquiet n fun m hm => hfirst m (Nat.zero_le _) hm

/-! ### The regions -/

theorem readU32_pidr2 (r : RedistRegion) : readU32 r gicrPidr2 = some ((r.read gicrPidr2).setWidth 32) :=
  if_pos (by decide)

theorem rdistRegionsLoop_cons {fn : Nat → RedistRegion → Nat → σ → Option (σ × Int)} {stride : Nat} :
    rdistRegionsLoop fn stride fuel i (r :: regions) s ret =
      if Present r then
        (rdistLoop fn stride i r fuel 0 s).bind fun (s, ret, results) =>
          if ret = 0 then some (s, 0, results)
          else (rdistRegionsLoop fn stride fuel (i + 1) regions s ret).map fun (s, v, more) => (s, v, results ++ more)
      else some (s, if ret ≠ 0 then negEnodev else 0, []) := by
  rw [rdistRegionsLoop, readU32_pidr2, Option.bind_some]
  by_cases hp : Present r
  · rw [if_pos hp, if_neg ?_]
    rw [not_and_or, not_not, not_not]
    exact hp
  · rw [if_neg hp, if_pos]
    rwa [Present, not_or] at hp

theorem endResult_ne (hret : ret ≠ 0) : (if ret ≠ 0 then negEnodev else 0) ≠ 0 := by
  rw [if_pos hret]
  decide

/-- A walk that has a result has walked regions that fit, and returns `0` iff a call did. -/
theorem rdistRegionsLoop_some {v : Int} (hsingle : ∀ r ∈ regions, r.singleRedist = false) (hret : ret ≠ 0)
    (hrun : rdistRegionsLoop c.fn redistributorStride fuel i regions s ret = some (s', v, results)) :
    WalkFits c i regions ∧ (v = 0 ↔ 0 ∈ results) := by
  induction regions generalizing i s s' ret results with
  | nil =>
    obtain ⟨-, hq⟩ := Prod.mk.inj (Option.some.inj hrun)
    obtain ⟨rfl, rfl⟩ := Prod.mk.inj hq
    exact ⟨trivial, iff_of_false (endResult_ne hret) List.not_mem_nil⟩
  | cons r regions ih =>
    rw [rdistRegionsLoop_cons] at hrun
    split at hrun
    · obtain ⟨⟨s₁, ret₁, results₁⟩, hloop, hrest⟩ := Option.bind_eq_some_iff.mp hrun
      obtain ⟨hfits, hquiet, hzero⟩ := rdistLoop_region c (hsingle r (by simp)) hloop
      dsimp only at hrest
      split at hrest
      · rename_i hret₁
        obtain ⟨-, hq⟩ := Prod.mk.inj (Option.some.inj hrest)
        obtain ⟨rfl, rfl⟩ := Prod.mk.inj hq
        exact ⟨fun _ => ⟨hfits, fun hq => absurd hret₁ (hquiet.mpr hq)⟩, iff_of_true rfl (hzero.mp hret₁)⟩
      · rename_i hret₁
        obtain ⟨⟨s₂, v₂, more⟩, hmore, hq⟩ := Option.map_eq_some_iff.mp hrest
        obtain ⟨-, hq⟩ := Prod.mk.inj hq
        obtain ⟨rfl, rfl⟩ := Prod.mk.inj hq
        obtain ⟨hwalk, hv⟩ := ih (fun r hr => hsingle r (List.mem_cons_of_mem _ hr)) hret₁ hmore
        refine ⟨fun _ => ⟨hfits, fun _ => hwalk⟩, ?_⟩
        rw [hv, List.mem_append, or_iff_right (fun h => hret₁ (hzero.mpr h))]
    · rename_i hp
      obtain ⟨-, hq⟩ := Prod.mk.inj (Option.some.inj hrun)
      obtain ⟨rfl, rfl⟩ := Prod.mk.inj hq
      exact ⟨fun h => absurd h hp, iff_of_false (by decide) List.not_mem_nil⟩

theorem rdistRegionsLoop_isSome (hsingle : ∀ r ∈ regions, r.singleRedist = false) (hfits : WalkFits c i regions) :
    ∃ res, rdistRegionsLoop c.fn redistributorStride 8 i regions s ret = some res := by
  induction regions generalizing i s ret with
  | nil => exact ⟨_, rfl⟩
  | cons r regions ih =>
    rw [rdistRegionsLoop_cons]
    split
    · rename_i hp
      obtain ⟨⟨n, hstop, hin⟩, hmore⟩ := hfits hp
      have hr := hsingle r (by simp)
      have hn : n < 0 + 8 := (hin n (Nat.le_refl _)).lt.trans_eq (Nat.zero_add 8).symm
      obtain ⟨⟨s₁, ret₁, results₁⟩, hloop⟩ : ∃ res, rdistLoop c.fn redistributorStride i r 8 (frameAt r 0) s = some res :=
        rdistLoop_isSome c hr hstop (Nat.zero_le _) (fun k _ hk => hin k hk) hn
      have hloop : rdistLoop c.fn redistributorStride i r 8 0 s = some (s₁, ret₁, results₁) := hloop
      rw [hloop, Option.bind_some]
      dsimp only
      split
      · exact ⟨_, rfl⟩
      · rename_i hret₁
        have hquiet := (rdistLoop_region c hr hloop).2.1.mp hret₁
        obtain ⟨res, hres⟩ := ih (fun r hr => hsingle r (List.mem_cons_of_mem _ hr)) (hmore hquiet)
        rw [hres]
        exact ⟨_, rfl⟩
    · exact ⟨_, rfl⟩

theorem rdistRegs_single (contents : List (Nat → BitVec 64)) : ∀ r ∈ rdistRegs contents, r.singleRedist = false := by
  intro r hr
  obtain ⟨read, -, rfl⟩ := List.mem_map.mp hr
  rfl

theorem WalkOk.fits {c : Callback σ} {contents : List (Nat → BitVec 64)} (h : WalkOk c (rdistRegs contents) s) :
    WalkFits c 0 (rdistRegs contents) := by
  obtain ⟨fuel, s', ret, results, hrun, -⟩ := h
  exact (rdistRegionsLoop_some c (rdistRegs_single contents) (by decide) hrun).1

/-- For any contents of any number of regions and any results of the calls: the walk ends without a read outside of
the windows and returns `0` iff a call did, iff in each region that is walked the frames up to one that stops the walk
are in the window. -/
theorem gicIterateRdists_ok_iff (contents : List (Nat → BitVec 64)) (s : σ) :
    WalkOk c (rdistRegs contents) s ↔ WalkFits c 0 (rdistRegs contents) := by
  constructor
  · exact WalkOk.fits
  · intro hfits
    obtain ⟨⟨s', ret, results⟩, hrun⟩ := rdistRegionsLoop_isSome c (rdistRegs_single contents) hfits
    exact ⟨8, s', ret, results, hrun, (rdistRegionsLoop_some c (rdistRegs_single contents) (by decide) hrun).2⟩

/-! ### The two functions -/

theorem readU64_of_le (h : ptr + 8 ≤ gicrMemmapSize) : readU64 r ptr = some (r.read ptr) := if_pos h

theorem readU64_of_lt (h : gicrMemmapSize < ptr + 8) : readU64 r ptr = none := if_neg (Nat.not_le.mpr h)

def populateCallback (aff : BitVec 32) : Callback (Option (Nat × Nat)) where
  fn := populateRdist aff
  result _ r ptr := if r.typer ptr >>> 32 = aff.setWidth 64 then 0 else 1
  need _ := 16
  inside i r ptr s h := by
    rw [populateRdist, readU64_typer h]
    simp only [Option.bind_eq_bind, Option.bind_some]
    split <;> exact ⟨_, rfl⟩
  outside i r ptr s h := by
    rw [populateRdist, readU64_typer_eq_none h]
    rfl

def updateCallback : Callback Features where
  fn := updateRdistProperties
  result _ _ _ := 1
  need typer := if typerVlpis typer && typerRvpeid typer then sz128K + 0x80 else 16
  inside i r ptr f h := by
    have hsize : sz128K = 0x20000 := rfl
    have hpend : gicrVpendbaser = 0x78 := rfl
    have hprop : gicrVpropbaser = 0x70 := rfl
    have htyper : ptr + 16 ≤ gicrMemmapSize := by
      split at h <;> omega
    have hctlr : readU32 r (ptr + gicrCtlr) = some ((r.read (ptr + gicrCtlr)).setWidth 32) :=
      if_pos (show ptr + 0 + 4 ≤ gicrMemmapSize by omega)
    rw [updateRdistProperties, readU64_typer htyper, hctlr]
    simp only [Option.bind_eq_bind, Option.bind_some]
    split at h
    · rename_i hvpe
      rw [if_pos hvpe, bootTimeCleanup, readU64_of_le (by omega), readU64_of_le (by omega)]
      exact ⟨_, rfl⟩
    · rename_i hvpe
      rw [if_neg hvpe]
      exact ⟨_, rfl⟩
  outside i r ptr f h := by
    have hpend : gicrVpendbaser = 0x78 := rfl
    rw [updateRdistProperties]
    rcases Nat.lt_or_ge gicrMemmapSize (ptr + 16) with hout | hin
    · rw [readU64_typer_eq_none hout]
      rfl
    · have hctlr : readU32 r (ptr + gicrCtlr) = some ((r.read (ptr + gicrCtlr)).setWidth 32) :=
        if_pos (show ptr + 0 + 4 ≤ gicrMemmapSize by omega)
      split at h
      · rename_i hvpe
        rw [readU64_typer hin, hctlr]
        simp only [Option.bind_eq_bind, Option.bind_some]
        rw [if_pos hvpe, bootTimeCleanup, readU64_of_lt (by omega)]
        rfl
      · omega

/-! ### The bring-up of a CPU -/

section Bringup

variable (env : BringupEnv)

def bringupAff : BitVec 32 := (gicMpidrToAffinity env.mpidr).setWidth 32

structure IsRegionOf (r : RedistRegion) : Prop where
  single : r.singleRedist = false
  pidr2 : (r.read gicrPidr2).setWidth 32 = env.pidr2
  typer : ∀ k, r.typer (k * sz128K) = env.typer k

/-- The walk of the bring-up is this walk, at the frame that is `k` times 128 KiB from the start. -/
theorem rdistLoop_bringup (hr : IsRegionOf env r) (s : Option (Nat × Nat)) (fuel k : Nat) :
    match gicIterateLoop env fuel k with
    | .found j => ∃ results, rdistLoop (populateRdist (bringupAff env)) redistributorStride 0 r fuel (k * sz128K) s =
        some (some (0, j * sz128K), 0, results)
    | .missing => ∃ results, rdistLoop (populateRdist (bringupAff env)) redistributorStride 0 r fuel (k * sz128K) s =
        some (s, 1, results)
    | .fault => rdistLoop (populateRdist (bringupAff env)) redistributorStride 0 r fuel (k * sz128K) s = none := by
  induction fuel generalizing k with
  | zero => rfl
  | succ fuel ih =>
    have hframes : redistFrames = 8 := rfl
    have hsize : gicrMemmapSize = 0x100000 := rfl
    have hk : k * sz128K = k * 0x20000 := rfl
    rw [gicIterateLoop]
    by_cases hout : redistFrames ≤ k
    · rw [if_pos hout]
      dsimp only
      rw [rdistLoop, readU64_typer_eq_none (by omega)]
      rfl
    · have hread : readU64 r (k * sz128K + gicrTyper) = some (env.typer k) := by
        rw [readU64_typer (by omega), hr.typer]
      rw [if_neg hout, rdistLoop, populateRdist, hread]
      simp only [Option.bind_eq_bind, Option.bind_some]
      by_cases hm : env.Matches k
      · have haff : env.typer k >>> 32 = (bringupAff env).setWidth 64 := hm
        rw [if_pos hm, if_pos haff]
        exact ⟨_, rfl⟩
      · have haff : ¬ env.typer k >>> 32 = (bringupAff env).setWidth 64 := hm
        rw [if_neg hm, if_neg haff, Option.bind_some]
        dsimp only
        rw [if_neg one_ne_zero, hr.single, if_neg Bool.false_ne_true,
          if_neg (show ¬ redistributorStride ≠ 0 from fun h => h rfl), show typerLast (env.typer k) = env.last k from rfl,
          show typerVlpis (env.typer k) = env.vlpis k from rfl]
        by_cases hlast : env.last k = true
        · rw [if_pos hlast, if_pos hlast]
          exact ⟨_, rfl⟩
        · have hnext : (k * sz128K + sz64K * 2 + if env.vlpis k then sz64K * 2 else 0) =
              (if env.vlpis k then k + 2 else k + 1) * sz128K := by
            have hunit : sz64K * 2 = sz128K := rfl
            split
            · rw [Nat.add_mul]
              omega
            · rw [Nat.add_mul]
              omega
          rw [if_neg hlast, if_neg hlast, hnext]
          have hrest := ih (if env.vlpis k then k + 2 else k + 1)
          split at hrest
          · obtain ⟨results, hrest⟩ := hrest
            rw [hrest]
            exact ⟨_, rfl⟩
          · obtain ⟨results, hrest⟩ := hrest
            rw [hrest]
            exact ⟨_, rfl⟩
          · rw [hrest]
            rfl

/-- `gic_populate_rdist` of the bring-up is `gic_iterate_rdists` over one region. -/
theorem gicIterateRdists_bringup (hr : IsRegionOf env r) :
    match gicPopulateRdist env with
    | .found j => ∃ results, gicIterateRdists (populateRdist (bringupAff env)) redistributorStride (redistFrames + 1) [r]
        none = some (some (0, j * sz128K), 0, results)
    | .missing => ∃ results, gicIterateRdists (populateRdist (bringupAff env)) redistributorStride (redistFrames + 1) [r]
        none = some (none, negEnodev, results)
    | .fault => gicIterateRdists (populateRdist (bringupAff env)) redistributorStride (redistFrames + 1) [r] none =
        none := by
  have hpresent : Present r ↔ env.present = true := by
    rw [Present, hr.pidr2, BringupEnv.present, Bool.or_eq_true, beq_iff_eq, beq_iff_eq]
    rfl
  rw [gicIterateRdists, rdistRegionsLoop_cons, gicPopulateRdist]
  by_cases hp : Present r
  · rw [if_pos hp, if_pos (hpresent.mp hp)]
    have hwalk := rdistLoop_bringup env hr none (redistFrames + 1) 0
    rw [Nat.zero_mul] at hwalk
    split at hwalk
    · obtain ⟨results, hwalk⟩ := hwalk
      rw [hwalk]
      exact ⟨_, rfl⟩
    · obtain ⟨results, hwalk⟩ := hwalk
      rw [hwalk]
      exact ⟨_, rfl⟩
    · rw [hwalk]
      rfl
  · rw [if_neg hp, if_neg fun h => hp (hpresent.mpr h)]
    exact ⟨_, rfl⟩

end Bringup

/-! ### A region without a last frame -/

theorem frameAt_mod (r : RedistRegion) (n : Nat) : frameAt r n % 0x20000 = 0 := by
  have hsize : sz128K = 0x20000 := rfl
  induction n with
  | zero => rfl
  | succ n ih =>
    rw [frameAt]
    split <;> omega

def openRegion (off : Nat) : BitVec 64 := if off = gicrPidr2 then 0x30 else 0

def allFeatures : Features := ⟨true, true, true, true, 2 ^ 32 - 1, []⟩

/-- `gic_update_rdist_properties` walks out of its window. -/
theorem open_region_left : ¬ ∀ (c : Callback Features) (contents : List (Nat → BitVec 64)) (f : Features),
    WalkOk c (rdistRegs contents) f := by
  intro hall
  have hfits := (hall updateCallback [openRegion] allFeatures).fits
  obtain ⟨⟨n, hstop, -⟩, -⟩ := hfits (.inl (by decide))
  have htyper : RedistRegion.typer ⟨openRegion, false⟩ (frameAt ⟨openRegion, false⟩ n) = 0 := by
    have hmod := frameAt_mod ⟨openRegion, false⟩ n
    have hpidr : gicrPidr2 = 0xffe8 := rfl
    have hoff : gicrTyper = 8 := rfl
    rw [RedistRegion.typer]
    exact if_neg (by omega)
  rcases hstop with hlast | hzero
  · rw [htyper] at hlast
    cases hlast
  · cases hzero

def fourFrames : RedistRegion where
  read off := if off = gicrPidr2 then 0x3b else fourCpus.typer (off / sz128K)
  singleRedist := false

theorem gicIterateRdists_fourFrames : ∃ results, gicIterateRdists (populateRdist (bringupAff fourCpus)) redistributorStride
    (redistFrames + 1) [fourFrames] none = some (some (0, 1 * sz128K), 0, results) := by
  have hr : IsRegionOf fourCpus fourFrames := by
    refine ⟨rfl, by decide, fun k => ?_⟩
    have hdiv : (k * sz128K + gicrTyper) / sz128K = k := by
      unfold sz128K gicrTyper
      omega
    simp only [RedistRegion.typer, fourFrames]
    rw [hdiv, if_neg]
    unfold sz128K gicrTyper gicrPidr2
    omega
  have hfound : gicPopulateRdist fourCpus = .found 1 := by decide
  have h := gicIterateRdists_bringup fourCpus hr
  rwa [hfound] at h

end QuestOS.Gic
