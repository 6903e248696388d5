import QuestOS.Lib.Bytes

/-!
# Loading a Linux payload from `fw_cfg`

`qfw.c` reads the setup block, the kernel, the initrd and the command line from QEMU's `fw_cfg` device and places them at
three fixed addresses.  The device hands out the bytes of the selected item one after the other, by its data register or by
DMA; both ways come to one `write` (`qfwReadItem_eq`).

No size is compared with the windows of `memory.h`, and no terminator is written behind the command line.  So the payload is
in place afterwards where what lies over another part agrees with it, and where a zero happens to end the command line
(`qfwLoadImages_loaded_iff`).
-/

namespace QuestOS.Qfw

open Bytes

/-! ### The device -/

structure Device where
  items : Nat → List UInt8
  selected : Nat
  offset : Nat

def Device.select (entry : Nat) (d : Device) : Device := { d with selected := entry, offset := 0 }

def Device.next (d : Device) (n : Nat) : List UInt8 :=
  (List.range n).map fun i => (d.items d.selected).getD (d.offset + i) 0

def Device.skip (d : Device) (n : Nat) : Device := { d with offset := d.offset + n }

structure State where
  dev : Device
  mem : Mem

def State.transfer (s : State) (n address : Nat) : State := ⟨s.dev.skip n, write s.mem address (s.dev.next n)⟩

/-! ### Reading an item -/

def fwCfgKernelSize : Nat := 0x08
def fwCfgInitrdSize : Nat := 0x0b
def fwCfgKernelData : Nat := 0x11
def fwCfgInitrdData : Nat := 0x12
def fwCfgCmdlineSize : Nat := 0x14
def fwCfgCmdlineData : Nat := 0x15
def fwCfgSetupSize : Nat := 0x17
def fwCfgSetupData : Nat := 0x18
def fwCfgInvalid : Nat := 0xffff

/-- A loop of `qfw_mmio_read_item_io`, over accesses of `w` bytes: `size` and `address` behind it, and the state. -/
def ioLoop (w : Nat) : (fuel size address : Nat) → State → Nat × Nat × State
  | 0, size, address, s => (size, address, s)
  | fuel + 1, size, address, s =>
    if size ≥ w then ioLoop w fuel (size - w) (address + w) (s.transfer w address) else (size, address, s)

def qfwMmioReadItemIo (entry size address : Nat) (s : State) : State :=
  let s := if entry ≠ fwCfgInvalid then { s with dev := s.dev.select entry } else s
  let (size, address, s) := ioLoop 8 size size address s
  let (size, address, s) := ioLoop 4 size size address s
  let (size, address, s) := ioLoop 2 size size address s
  let (_, _, s) := ioLoop 1 size size address s
  s

structure QfwDma where
  control : Nat
  length : Nat
  address : Nat

def fwCfgDmaRead : Nat := 1 <<< 1
def fwCfgDmaSelect : Nat := 1 <<< 3

/-- What the device does with a `struct qfw_dma` before it clears `control`. -/
def qfwMmioReadItemDma (dma : QfwDma) (s : State) : State :=
  let s := if dma.control.testBit 3 then { s with dev := s.dev.select (dma.control >>> 16) } else s
  if dma.control.testBit 1 then s.transfer dma.length dma.address else s

def qfwReadItemDma (entry size address : Nat) (s : State) : State :=
  let control := fwCfgDmaRead
  let control := if entry ≠ fwCfgInvalid then control ||| (fwCfgDmaSelect ||| entry <<< 16) else control
  qfwMmioReadItemDma ⟨control, size, address⟩ s

/-- `qfw_read_item`; the flag is `g_dma_present`. -/
def qfwReadItem (dmaPresent : Bool) (entry size address : Nat) (s : State) : State :=
  if dmaPresent then qfwReadItemDma entry size address s else qfwMmioReadItemIo entry size address s

/-! ### Loading the images -/

def ramBase : Nat := 0x40000000
def kernelImageLoadAddr : Nat := ramBase + 0x200000
def kernelImageLoadSize : Nat := 128 * 2 ^ 20
def initrdImageLoadAddr : Nat := kernelImageLoadAddr + kernelImageLoadSize
def initrdImageLoadSize : Nat := 4 * 2 ^ 20
def bootargsLoadAddr : Nat := initrdImageLoadAddr + initrdImageLoadSize

def negEnoent : Int := -2

def readSize (dmaPresent : Bool) (entry : Nat) (s : State) : Nat × State :=
  let local_ := qfwReadItem dmaPresent entry 4 0 { s with mem := fun _ => 0 }
  (loadLE local_.mem 0 4, { s with dev := local_.dev })

def qfwLoadImages (dmaPresent : Bool) (s : State) : Int × State :=
  let (setupSize, s) := readSize dmaPresent fwCfgSetupSize s
  let (kernelSize, s) := readSize dmaPresent fwCfgKernelSize s
  if kernelSize = 0 then (negEnoent, s)
  else
    let s := if setupSize ≠ 0 then qfwReadItem dmaPresent fwCfgSetupData setupSize kernelImageLoadAddr s else s
    let dataAddr := if setupSize ≠ 0 then kernelImageLoadAddr + setupSize else kernelImageLoadAddr
    let s := qfwReadItem dmaPresent fwCfgKernelData kernelSize dataAddr s
    let (initrdSize, s) := readSize dmaPresent fwCfgInitrdSize s
    let s := if initrdSize ≠ 0 then qfwReadItem dmaPresent fwCfgInitrdData initrdSize initrdImageLoadAddr s else s
    let (cmdlineSize, s) := readSize dmaPresent fwCfgCmdlineSize s
    let s := if cmdlineSize ≠ 0 then qfwReadItem dmaPresent fwCfgCmdlineData cmdlineSize bootargsLoadAddr s else s
    (0, s)

/-! ### What a read does -/

section Read

variable {s : State} {w n size address entry : Nat}

@[simp] theorem length_next (d : Device) (n : Nat) : (d.next n).length = n := by simp [Device.next]

theorem next_append (d : Device) (n k : Nat) : d.next n ++ (d.skip n).next k = d.next (n + k) := by
  rw [Device.next, Device.next, Device.next, List.range_add, List.map_append, List.map_map]
  refine congrArg _ (List.map_congr_left fun i _ => ?_)
  rw [Device.skip, Function.comp, Nat.add_assoc]

theorem next_select (d : Device) (entry : Nat) : (d.select entry).next (d.items entry).length = d.items entry := by
  apply List.ext_getElem
  · rw [length_next]
  · intro i h1 h2
    simp [Device.next, Device.select, h2]

@[simp] theorem transfer_zero (s : State) (address : Nat) : s.transfer 0 address = s := by
  have hmem : write s.mem address [] = s.mem := (write_wrote s.mem address []).unique (.nil ..)
  rw [State.transfer, show s.dev.next 0 = [] from rfl, hmem]
  rfl

theorem transfer_transfer (s : State) (n k address : Nat) :
    (s.transfer n address).transfer k (address + n) = s.transfer (n + k) address := by
  have hdev : (s.dev.skip n).skip k = s.dev.skip (n + k) := by simp [Device.skip, Nat.add_assoc]
  have hmem : write (write s.mem address (s.dev.next n)) (address + n) ((s.dev.skip n).next k) =
      write s.mem address (s.dev.next (n + k)) := by
    have hfirst := write_wrote s.mem address (s.dev.next n)
    have hsecond := write_wrote (write s.mem address (s.dev.next n)) (address + n) ((s.dev.skip n).next k)
    have happend := hfirst.append (by rwa [length_next])
    rw [next_append] at happend
    exact happend.unique (write_wrote ..)
  rw [State.transfer, State.transfer, State.transfer, hdev, hmem]

theorem ioLoop_spec (hw : 0 < w) (size address : Nat) (s : State) : ∃ n, n ≤ size ∧ size - n < w ∧
    ioLoop w size size address s = (size - n, address + n, s.transfer n address) := by
  have hloop : ∀ fuel size address s, size ≤ fuel → ∃ n, n ≤ size ∧ size - n < w ∧
      ioLoop w fuel size address s = (size - n, address + n, s.transfer n address) := by
    intro fuel
    induction fuel with
    | zero =>
      intro size address s hfuel
      refine ⟨0, Nat.zero_le _, by omega, ?_⟩
      rw [ioLoop, transfer_zero]
      rfl
    | succ fuel ih =>
      intro size address s hfuel
      rw [ioLoop]
      split
      · obtain ⟨n, hn, hrest, hrun⟩ := ih (size - w) (address + w) (s.transfer w address) (by omega)
        refine ⟨w + n, by omega, by omega, ?_⟩
        rw [hrun, transfer_transfer, Nat.sub_sub, Nat.add_assoc]
      · refine ⟨0, Nat.zero_le _, by omega, ?_⟩
        rw [transfer_zero]
        rfl
  exact hloop size size address s (Nat.le_refl _)

theorem qfwMmioReadItemIo_eq (hentry : entry ≠ fwCfgInvalid) (size address : Nat) (s : State) :
    qfwMmioReadItemIo entry size address s = ({ s with dev := s.dev.select entry } : State).transfer size address := by
  rw [qfwMmioReadItemIo, if_pos hentry]
  generalize ({ s with dev := s.dev.select entry } : State) = s₀
  obtain ⟨n₈, h₈, -, hloop₈⟩ := ioLoop_spec (w := 8) (by decide) size address s₀
  obtain ⟨n₄, h₄, -, hloop₄⟩ := ioLoop_spec (w := 4) (by decide) (size - n₈) (address + n₈) (s₀.transfer n₈ address)
  rw [transfer_transfer] at hloop₄
  obtain ⟨n₂, h₂, -, hloop₂⟩ := ioLoop_spec (w := 2) (by decide) (size - n₈ - n₄) (address + n₈ + n₄)
    (s₀.transfer (n₈ + n₄) address)
  rw [Nat.add_assoc, transfer_transfer] at hloop₂
  obtain ⟨n₁, h₁, hlast, hloop₁⟩ := ioLoop_spec (w := 1) (by decide) (size - n₈ - n₄ - n₂) (address + (n₈ + n₄) + n₂)
    (s₀.transfer (n₈ + n₄ + n₂) address)
  rw [Nat.add_assoc, transfer_transfer] at hloop₁
  simp only [hloop₈, Nat.add_assoc address, hloop₄, hloop₂, hloop₁]
  congr 1
  omega

theorem qfwReadItemDma_eq (hentry : entry < fwCfgInvalid) (size address : Nat) (s : State) :
    qfwReadItemDma entry size address s = ({ s with dev := s.dev.select entry } : State).transfer size address := by
  have hcontrol : fwCfgDmaRead ||| (fwCfgDmaSelect ||| entry <<< 16) = 10 + entry * 2 ^ 16 := by
    rw [← Nat.or_assoc, show fwCfgDmaRead ||| fwCfgDmaSelect = 10 from rfl, Nat.shiftLeft_eq, Nat.mul_comm,
      Nat.or_comm, ← Nat.two_pow_add_eq_or_of_lt (by decide), Nat.add_comm]
  have hselect : (10 + entry * 2 ^ 16) >>> 16 = entry := by
    rw [Nat.shiftRight_eq_div_pow]
    omega
  have hbit3 : (10 + entry * 2 ^ 16).testBit 3 = true := by
    rw [Nat.testBit_eq_decide_div_mod_eq, decide_eq_true_eq]
    omega
  have hbit1 : (10 + entry * 2 ^ 16).testBit 1 = true := by
    rw [Nat.testBit_eq_decide_div_mod_eq, decide_eq_true_eq]
    omega
  rw [qfwReadItemDma, if_pos (Nat.ne_of_lt hentry), hcontrol, qfwMmioReadItemDma]
  simp only [hbit3, hbit1, hselect, if_true]

theorem qfwReadItem_eq (dma : Bool) (hentry : entry < fwCfgInvalid) (size address : Nat) (s : State) :
    qfwReadItem dma entry size address s = ({ s with dev := s.dev.select entry } : State).transfer size address := by
  cases dma
  · exact qfwMmioReadItemIo_eq (Nat.ne_of_lt hentry) size address s
  · exact qfwReadItemDma_eq hentry size address s

end Read

/-! ### The payload in memory -/

structure Payload where
  setup : List UInt8
  kernel : List UInt8
  initrd : List UInt8
  cmdline : List UInt8
  setup_lt : setup.length < 2 ^ 32
  kernel_lt : kernel.length < 2 ^ 32
  initrd_lt : initrd.length < 2 ^ 32
  cmdline_lt : cmdline.length < 2 ^ 32

namespace Payload

structure ServedBy (p : Payload) (items : Nat → List UInt8) : Prop where
  setupSize : items fwCfgSetupSize = encodeLE 4 p.setup.length
  setupData : items fwCfgSetupData = p.setup
  kernelSize : items fwCfgKernelSize = encodeLE 4 p.kernel.length
  kernelData : items fwCfgKernelData = p.kernel
  initrdSize : items fwCfgInitrdSize = encodeLE 4 p.initrd.length
  initrdData : items fwCfgInitrdData = p.initrd
  cmdlineSize : items fwCfgCmdlineSize = encodeLE 4 p.cmdline.length
  cmdlineData : items fwCfgCmdlineData = p.cmdline

def image (p : Payload) : List UInt8 := p.setup ++ p.kernel

def commandLine (p : Payload) : List UInt8 := p.cmdline.takeWhile (· ≠ 0)

structure Loaded (p : Payload) (m : Mem) : Prop where
  image : At m kernelImageLoadAddr p.image
  initrd : At m initrdImageLoadAddr p.initrd
  bootargs : At m bootargsLoadAddr (p.commandLine ++ [0])

/-- The byte behind the command line: of the initrd or the image where they reach so far, or of the memory before. -/
def byteBehind (p : Payload) (m : Mem) : UInt8 :=
  p.initrd[initrdImageLoadSize + p.cmdline.length]?.getD
    (p.image[kernelImageLoadSize + initrdImageLoadSize + p.cmdline.length]?.getD (m (bootargsLoadAddr + p.cmdline.length)))

/-- A part that reaches into the next window has the same bytes there, and a zero ends the command line. -/
structure Compatible (p : Payload) (m : Mem) : Prop where
  imageInitrd : Agree p.image kernelImageLoadSize p.initrd
  imageCmdline : Agree p.image (kernelImageLoadSize + initrdImageLoadSize) p.cmdline
  initrdCmdline : Agree p.initrd initrdImageLoadSize p.cmdline
  terminated : 0 ∈ p.cmdline ∨ p.byteBehind m = 0

/-- It is enough that every part fits into its window of `memory.h` and the command line brings its terminator. -/
theorem compatible_of_fits (p : Payload) (m : Mem) (himage : p.image.length ≤ kernelImageLoadSize)
    (hinitrd : p.initrd.length ≤ initrdImageLoadSize) (hzero : 0 ∈ p.cmdline) : p.Compatible m where
  imageInitrd := agree_of_length_le himage
  imageCmdline := agree_of_length_le (Nat.le_trans himage (Nat.le_add_right ..))
  initrdCmdline := agree_of_length_le hinitrd
  terminated := .inl hzero

def place (p : Payload) (m : Mem) : Mem :=
  write (write (write m kernelImageLoadAddr p.image) initrdImageLoadAddr p.initrd) bootargsLoadAddr p.cmdline

end Payload

section Load

variable {d : Device} {m : Mem} {p : Payload} {entry n : Nat} {l : List UInt8}

theorem qfwReadItem_item (dma : Bool) (address : Nat) (hl : d.items entry = l) (hentry : entry < fwCfgInvalid) :
    ∃ d', d'.items = d.items ∧ qfwReadItem dma entry l.length address ⟨d, m⟩ = ⟨d', write m address l⟩ := by
  subst hl
  refine ⟨(d.select entry).skip (d.items entry).length, rfl, ?_⟩
  rw [qfwReadItem_eq dma hentry, State.transfer, next_select]

theorem qfwReadItem_nonempty (dma : Bool) (address : Nat) (hl : d.items entry = l) (hentry : entry < fwCfgInvalid) :
    ∃ d', d'.items = d.items ∧
      (if l.length ≠ 0 then qfwReadItem dma entry l.length address ⟨d, m⟩ else ⟨d, m⟩) = ⟨d', write m address l⟩ := by
  by_cases hlen : l.length = 0
  · have hmem : write m address [] = m := (write_wrote m address []).unique (.nil ..)
    refine ⟨d, rfl, ?_⟩
    rw [if_neg (not_not_intro hlen), List.length_eq_zero_iff.1 hlen, hmem]
  · rw [if_pos hlen]
    exact qfwReadItem_item dma address hl hentry

theorem readSize_item (dma : Bool) (hn : n < 2 ^ 32) (hitem : d.items entry = encodeLE 4 n) (hentry : entry < fwCfgInvalid) :
    ∃ d', d'.items = d.items ∧ readSize dma entry ⟨d, m⟩ = (n, ⟨d', m⟩) := by
  obtain ⟨d', hd', hread⟩ := qfwReadItem_item (m := fun _ => 0) dma 0 hitem hentry
  rw [length_encodeLE] at hread
  refine ⟨d', hd', ?_⟩
  rw [readSize, hread, loadLE_of_at (write_wrote ..).at_, Nat.mod_eq_of_lt (show n < 256 ^ 4 from hn)]

theorem write_image (p : Payload) (m : Mem) (a : Nat) :
    write (write m a p.setup) (a + p.setup.length) p.kernel = write m a p.image :=
  ((write_wrote m a p.setup).append (write_wrote ..)).unique (write_wrote ..)

/-- `qfw_load_images` fails without a kernel, and places the three parts otherwise. -/
theorem qfwLoadImages_eq (dma : Bool) (hs : p.ServedBy d.items) :
    (p.kernel = [] ∧ (qfwLoadImages dma ⟨d, m⟩).1 = negEnoent) ∨
      p.kernel ≠ [] ∧ (qfwLoadImages dma ⟨d, m⟩).1 = 0 ∧ (qfwLoadImages dma ⟨d, m⟩).2.mem = p.place m := by
  obtain ⟨d₁, hd₁, hsetup⟩ := readSize_item (m := m) dma p.setup_lt hs.setupSize (by decide)
  rw [← hd₁] at hs
  obtain ⟨d₂, hd₂, hkernel⟩ := readSize_item (m := m) dma p.kernel_lt hs.kernelSize (by decide)
  rw [← hd₂] at hs
  by_cases hempty : p.kernel = []
  · refine .inl ⟨hempty, ?_⟩
    simp [qfwLoadImages, hsetup, hkernel, hempty]
  · have hlen : p.kernel.length ≠ 0 := mt List.length_eq_zero_iff.1 hempty
    have haddr : (if p.setup.length ≠ 0 then kernelImageLoadAddr + p.setup.length else kernelImageLoadAddr) =
        kernelImageLoadAddr + p.setup.length := by
      split
      · rfl
      · omega
    -- the parts are read one after the other, each with its size before it
    obtain ⟨d₃, hd₃, hdata⟩ := qfwReadItem_nonempty (m := m) dma kernelImageLoadAddr hs.setupData (by decide)
    rw [← hd₃] at hs
    obtain ⟨d₄, hd₄, hbody⟩ := qfwReadItem_item (m := write m kernelImageLoadAddr p.setup) dma
      (kernelImageLoadAddr + p.setup.length) hs.kernelData (by decide)
    rw [← hd₄] at hs
    rw [write_image] at hbody
    generalize hm₁ : write m kernelImageLoadAddr p.image = m₁ at hbody
    obtain ⟨d₅, hd₅, hisize⟩ := readSize_item (m := m₁) dma p.initrd_lt hs.initrdSize (by decide)
    rw [← hd₅] at hs
    obtain ⟨d₆, hd₆, hinitrd⟩ := qfwReadItem_nonempty (m := m₁) dma initrdImageLoadAddr hs.initrdData (by decide)
    rw [← hd₆] at hs
    generalize hm₂ : write m₁ initrdImageLoadAddr p.initrd = m₂ at hinitrd
    obtain ⟨d₇, hd₇, hcsize⟩ := readSize_item (m := m₂) dma p.cmdline_lt hs.cmdlineSize (by decide)
    rw [← hd₇] at hs
    obtain ⟨d₈, hd₈, hcmdline⟩ := qfwReadItem_nonempty (m := m₂) dma bootargsLoadAddr hs.cmdlineData (by decide)
    have hrun : qfwLoadImages dma ⟨d, m⟩ = (0, ⟨d₈, p.place m⟩) := by
      simp only [qfwLoadImages, hsetup, hkernel, if_neg hlen, hdata, haddr, hbody, hisize, hinitrd, hcsize, hcmdline,
        Payload.place, hm₁, hm₂]
    rw [hrun]
    exact .inr ⟨hempty, rfl, rfl⟩

theorem place_loaded_iff (p : Payload) (m : Mem) : p.Loaded (p.place m) ↔ p.Compatible m := by
  have himage : At (write m kernelImageLoadAddr p.image) kernelImageLoadAddr p.image := (write_wrote ..).at_
  have hinitrd : At (write (write m kernelImageLoadAddr p.image) initrdImageLoadAddr p.initrd) initrdImageLoadAddr p.initrd :=
    (write_wrote ..).at_
  have hcmdline : At (p.place m) bootargsLoadAddr p.cmdline := (write_wrote ..).at_
  have hbehind : p.place m (bootargsLoadAddr + p.cmdline.length) = p.byteBehind m := by
    have hinitrd' : bootargsLoadAddr + p.cmdline.length =
        initrdImageLoadAddr + (initrdImageLoadSize + p.cmdline.length) := Nat.add_assoc ..
    have himage' : bootargsLoadAddr + p.cmdline.length =
        kernelImageLoadAddr + (kernelImageLoadSize + initrdImageLoadSize + p.cmdline.length) := by
      rw [bootargsLoadAddr, initrdImageLoadAddr]
      omega
    rw [Payload.place, write_offset, List.getElem?_eq_none (Nat.le_refl _), Option.getD_none, Payload.byteBehind, hinitrd',
      write_offset, ← hinitrd', himage', write_offset]
  constructor
  · intro h
    exact ⟨h.image.agree h.initrd, h.image.agree (by rwa [← Nat.add_assoc]), h.initrd.agree hcmdline,
      hbehind ▸ (at_cString_iff hcmdline).1 h.bootargs⟩
  · intro h
    refine ⟨?_, ?_, ?_⟩
    · have h₁ := himage.write_of_agree h.imageInitrd
      have h₂ := h₁.write_of_agree h.imageCmdline
      rw [← Nat.add_assoc] at h₂
      exact h₂
    · exact hinitrd.write_of_agree h.initrdCmdline
    · exact (at_cString_iff hcmdline).2 (hbehind ▸ h.terminated)

/-- When `qfw_load_images` returns 0, the whole payload is in place if and only if no part lies over another one with other
bytes and a zero ends the command line. -/
theorem qfwLoadImages_loaded_iff (dma : Bool) (hs : p.ServedBy d.items) (hret : (qfwLoadImages dma ⟨d, m⟩).1 = 0) :
    p.Loaded (qfwLoadImages dma ⟨d, m⟩).2.mem ↔ p.Compatible m := by
  obtain ⟨-, herr⟩ | ⟨-, -, hmem⟩ := qfwLoadImages_eq (m := m) dma hs
  · rw [hret] at herr
    cases herr
  · rw [hmem, place_loaded_iff]

def Payload.device (p : Payload) : Device where
  items entry :=
    if entry = fwCfgSetupSize then encodeLE 4 p.setup.length
    else if entry = fwCfgSetupData then p.setup
    else if entry = fwCfgKernelSize then encodeLE 4 p.kernel.length
    else if entry = fwCfgKernelData then p.kernel
    else if entry = fwCfgInitrdSize then encodeLE 4 p.initrd.length
    else if entry = fwCfgInitrdData then p.initrd
    else if entry = fwCfgCmdlineSize then encodeLE 4 p.cmdline.length
    else if entry = fwCfgCmdlineData then p.cmdline
    else []
  selected := 0
  offset := 0

theorem Payload.served_device (p : Payload) : p.ServedBy p.device.items := ⟨rfl, rfl, rfl, rfl, rfl, rfl, rfl, rfl⟩

def smallPayload : Payload where
  setup := []
  kernel := [0x1f, 0x20]
  initrd := [7]
  cmdline := [0x61, 0]
  setup_lt := by decide
  kernel_lt := by decide
  initrd_lt := by decide
  cmdline_lt := by decide

theorem smallPayload_loaded : (qfwLoadImages true ⟨smallPayload.device, fun _ => 1⟩).1 = 0 ∧
    smallPayload.Loaded (qfwLoadImages true ⟨smallPayload.device, fun _ => 1⟩).2.mem := by
  have hret : (qfwLoadImages true ⟨smallPayload.device, fun _ => 1⟩).1 = 0 := by decide
  exact ⟨hret, (qfwLoadImages_loaded_iff true smallPayload.served_device hret).2
    (smallPayload.compatible_of_fits _ (by decide) (by decide) (by decide))⟩

def largeKernel : Payload where
  setup := []
  kernel := List.replicate (kernelImageLoadSize + 1) 0
  initrd := [1]
  cmdline := [0]
  setup_lt := by decide
  kernel_lt := by
    rw [List.length_replicate]
    decide
  initrd_lt := by decide
  cmdline_lt := by decide

/-- The initrd overwrites the last byte of the kernel. -/
theorem largeKernel_not_loaded : (qfwLoadImages true ⟨largeKernel.device, fun _ => 0⟩).1 = 0 ∧
    ¬ largeKernel.Loaded (qfwLoadImages true ⟨largeKernel.device, fun _ => 0⟩).2.mem := by
  obtain ⟨hempty, -⟩ | ⟨-, hret, hmem⟩ := qfwLoadImages_eq (m := fun _ => 0) true largeKernel.served_device
  · cases hempty
  · refine ⟨hret, fun h => ?_⟩
    rw [hmem, place_loaded_iff] at h
    have hlen : kernelImageLoadSize + 0 < largeKernel.image.length := by
      change _ < (List.replicate (kernelImageLoadSize + 1) (0 : UInt8)).length
      rw [List.length_replicate]
      exact Nat.lt_succ_self _
    have hzero : ∀ c ∈ largeKernel.image, c = 0 := fun c hc => List.eq_of_mem_replicate hc
    have hbyte := h.imageInitrd 0 hlen (by decide)
    rw [hzero _ (List.getElem_mem hlen)] at hbyte
    exact absurd hbyte (by decide)

end Load

end QuestOS.Qfw
