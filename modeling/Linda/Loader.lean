/-
The boot loader of loader.c: how it reads a segment from the boot disk, sector
by sector, through the ports of the drive.
-/
import Linda.DiskSectors
import Linda.ByteMemory

namespace Linda

open ByteMemory FuelLoop

/-- The drives, and what the status port answers, poll after poll.  However
long it is busy, the drive becomes ready again. -/
structure BootDrive where
  drives : Drives
  status : Nat → UInt8
  ready : ∀ poll, ∃ later, poll ≤ later ∧ status later &&& 0xC0 = 0x40

/-- A byte of the disk the machine was booted from. -/
def BootDrive.byte (drive : BootDrive) (n : Nat) : UInt8 :=
  drive.drives 0 (n / sectorSize) (n % sectorSize)

/-- What was last written to the ports, the command given, and how often the
status was read. -/
structure IdePorts where
  regs : Command
  issued : Option Command
  polls : Nat

namespace IdePorts

variable (p : IdePorts)

/-- `outb` to the ports of the drive. -/
def outb (port : Nat) (cnt : UInt8) : IdePorts :=
  if port = 0x1F2 then { p with regs.count := cnt }
  else if port = 0x1F3 then { p with regs.lba0 := cnt }
  else if port = 0x1F4 then { p with regs.lba1 := cnt }
  else if port = 0x1F5 then { p with regs.lba2 := cnt }
  else if port = 0x1F6 then { p with regs.drive := cnt }
  else if port = 0x1F7 then
    { p with
      regs.command := cnt
      issued := some { p.regs with command := cnt } }
  else p

/-- `insl` from the data port: `count` words of what the command reads. -/
def insl (drive : BootDrive) (m : Memory) (dst count : Nat) : Memory := fun x =>
  match p.issued with
  | none => m x
  | some c =>
      if c.command = ideCmdRead ∧ dst ≤ x ∧ x < dst + 4 * count then
        c.content drive.drives (x - dst)
      else m x

end IdePorts

/-- One poll of `wait_disk`. -/
def waitBody (drive : BootDrive) (p : IdePorts) :
    Except DiskHalt (IdePorts ⊕ IdePorts) :=
  let status := drive.status p.polls
  let p := { p with polls := p.polls + 1 }
  if status &&& 0xC0 ≠ 0x40 then .ok (.inl p) else .ok (.inr p)

def waitDisk (drive : BootDrive) (fuel : Nat) (p : IdePorts) :
    Except DiskHalt IdePorts :=
  loop .spin (waitBody drive) fuel p

def readSectors (drive : BootDrive) (fuel : Nat) (m : Memory) (p : IdePorts)
    (dst offset : UInt32) (count : UInt8) :
    Except DiskHalt (Memory × IdePorts) := do
  let p ← waitDisk drive fuel p
  let p := p.outb 0x1F2 count
  let p := p.outb 0x1F3 (offset &&& 0xFF).toUInt8
  let p := p.outb 0x1F4 ((offset >>> 8) &&& 0xFF).toUInt8
  let p := p.outb 0x1F5 ((offset >>> 16) &&& 0xFF).toUInt8
  let p := p.outb 0x1F6 ((offset >>> 24) ||| 0xE0).toUInt8
  let p := p.outb 0x1F7 0x20
  let p ← waitDisk drive fuel p
  .ok (p.insl drive m dst.toNat (sectorSize / 4), p)

/-- The loop of `read_segment`: the next sector and where it goes. -/
structure SegmentState where
  mem : Memory
  ports : IdePorts
  startAddr : UInt32
  sectpos : UInt32

def segmentBody (drive : BootDrive) (endAddr : UInt32) (fuel : Nat)
    (s : SegmentState) : Except DiskHalt (SegmentState ⊕ (Memory × IdePorts)) :=
  if s.startAddr < endAddr then do
    let (m, p) ← readSectors drive fuel s.mem s.ports s.startAddr s.sectpos 1
    .ok (.inl ⟨m, p, s.startAddr + 512, s.sectpos + 1⟩)
  else .ok (.inr (s.mem, s.ports))

def readSegment (drive : BootDrive) (fuel : Nat) (m : Memory) (p : IdePorts)
    (dst length offset : UInt32) : Except DiskHalt (Memory × IdePorts) :=
  let endAddr := dst + length
  loop .spin (segmentBody drive endAddr fuel) fuel
    ⟨m, p, dst - offset % 512, offset / 512 + 1⟩

/-- `loader_start` -/
def loaderStart (drive : BootDrive) (fuel : Nat) (m : Memory) (p : IdePorts) :
    Except DiskHalt (Memory × IdePorts) :=
  readSegment drive fuel m p 0x10000 4096 0

/-- The memory with `n` sectors from `first` on read to `base`. -/
def withSectors (drive : BootDrive) (m : Memory) (base first n : Nat) : Memory :=
  fun x =>
    if base ≤ x ∧ x < base + sectorSize * n then
      drive.byte (sectorSize * first + (x - base))
    else m x

section Sectors

variable {drive : BootDrive} {m : Memory} {p : IdePorts}

/-- The drive is waited for, however long it takes. -/
theorem waitDisk_settles (drive : BootDrive) (p : IdePorts) :
    ∃ polls, Settles (fun fuel => waitDisk drive fuel p)
      (.ok { p with polls := polls }) := by
  obtain ⟨later, hle, hready⟩ := drive.ready p.polls
  obtain ⟨rounds, rfl⟩ := Nat.exists_eq_add_of_le hle
  suffices ∃ polls, Runs .spin (fun _ => waitBody drive) p
      (.ok { p with polls := polls }) by
    obtain ⟨polls, hruns⟩ := this
    exact ⟨polls, hruns.settles⟩
  clear hle
  induction rounds generalizing p with
  | zero =>
      refine ⟨p.polls + 1, Runs.exit ?_⟩
      rw [Nat.add_zero] at hready
      simp only [waitBody, hready, ne_eq, not_true_eq_false, ↓reduceIte]
      exact settles_const _
  | succ rounds ih =>
      by_cases hnow : drive.status p.polls &&& 0xC0 = 0x40
      · refine ⟨p.polls + 1, Runs.exit ?_⟩
        simp only [waitBody, hnow, ne_eq, not_true_eq_false, ↓reduceIte]
        exact settles_const _
      · have hnext : p.polls + 1 + rounds = p.polls + (rounds + 1) := by omega
        obtain ⟨polls, hruns⟩ := ih { p with polls := p.polls + 1 }
          (by rw [hnext]; exact hready)
        refine ⟨polls, Runs.next ?_ hruns⟩
        simp only [waitBody, hnow, ne_eq, not_false_eq_true, ↓reduceIte]
        exact settles_const _

/-- The command `read_sectors` gives for one sector. -/
def sectorCommand (regs : Command) (offset : UInt32) : Command :=
  { regs with
    count := 1
    lba0 := (offset &&& 0xFF).toUInt8
    lba1 := ((offset >>> 8) &&& 0xFF).toUInt8
    lba2 := ((offset >>> 16) &&& 0xFF).toUInt8
    drive := ((offset >>> 24) ||| 0xE0).toUInt8
    command := ideCmdRead }

/-- Four bits of a sector number and the constant beside them. -/
theorem head_bits : ∀ n < 16,
    (((UInt32.ofNat n ||| 0xE0).toUInt8) &&& 0x0F).toNat = n ∧
      ((UInt32.ofNat n ||| 0xE0).toUInt8 >>> 4) &&& 1 = 0 := by
  decide

theorem sectorCommand_drive (regs : Command) {offset : UInt32}
    (hoffset : offset.toNat < 2 ^ 28) :
    ((sectorCommand regs offset).drive &&& 0x0F).toNat =
        offset.toNat / 2 ^ 24 ∧
      (sectorCommand regs offset).unit = 0 := by
  have hlt : offset.toNat / 2 ^ 24 < 16 := by omega
  have hshift : offset >>> 24 = UInt32.ofNat (offset.toNat / 2 ^ 24) := by
    rw [← UInt32.toNat_inj, UInt32.toNat_shiftRight, UInt32.toNat_ofNat',
      Nat.shiftRight_eq_div_pow]
    change offset.toNat / 2 ^ 24 = _
    omega
  rw [Command.unit, sectorCommand, hshift]
  exact head_bits _ hlt

/-- The ports name the sector. -/
theorem sectorCommand_start (regs : Command) {offset : UInt32}
    (hoffset : offset.toNat < 2 ^ 28) :
    (sectorCommand regs offset).start = offset.toNat := by
  rw [Command.start, (sectorCommand_drive regs hoffset).1]
  simp only [sectorCommand, UInt32.toNat_toUInt8, UInt32.toNat_and,
    UInt32.toNat_shiftRight, UInt32.reduceToNat, nat_and_byte,
    Nat.shiftRight_eq_div_pow, Nat.reduceMod]
  omega

theorem sectorCommand_content (drive : BootDrive) (regs : Command)
    {offset : UInt32} (hoffset : offset.toNat < 2 ^ 28) {i : Nat}
    (hi : i < sectorSize) :
    (sectorCommand regs offset).content drive.drives i =
      drive.byte (sectorSize * offset.toNat + i) := by
  have hsector : (sectorSize * offset.toNat + i) / sectorSize = offset.toNat ∧
      (sectorSize * offset.toNat + i) % sectorSize = i := by
    simp only [sectorSize] at hi ⊢
    omega
  rw [Command.content, (sectorCommand_drive regs hoffset).2,
    sectorCommand_start regs hoffset, BootDrive.byte, hsector.1, hsector.2,
    Nat.div_eq_of_lt hi, Nat.mod_eq_of_lt hi, Nat.add_zero]

/-- What `insl` then reads. -/
theorem insl_sector (drive : BootDrive) (m : Memory) {p : IdePorts}
    {regs : Command} (dst : Nat) {offset : UInt32}
    (hissued : p.issued = some (sectorCommand regs offset))
    (hoffset : offset.toNat < 2 ^ 28) :
    p.insl drive m dst (sectorSize / 4) =
      withSectors drive m dst offset.toNat 1 := by
  have hread : (sectorCommand regs offset).command = ideCmdRead := rfl
  have hwords : 4 * (sectorSize / 4) = sectorSize := rfl
  funext x
  simp only [IdePorts.insl, hissued, hread, true_and, hwords, withSectors,
    Nat.mul_one]
  split_ifs with hin
  · exact sectorCommand_content drive regs hoffset (by omega)
  · rfl

/-- One sector goes to memory. -/
theorem readSectors_settles (drive : BootDrive) (m : Memory) (p : IdePorts)
    (dst : UInt32) {offset : UInt32} (hoffset : offset.toNat < 2 ^ 28) :
    ∃ p', Settles (fun fuel => readSectors drive fuel m p dst offset 1)
      (.ok (withSectors drive m dst.toNat offset.toNat 1, p')) := by
  obtain ⟨polls, hwait⟩ := waitDisk_settles drive p
  obtain ⟨polls', hwait'⟩ := waitDisk_settles drive
    ⟨sectorCommand p.regs offset, some (sectorCommand p.regs offset), polls⟩
  refine ⟨⟨sectorCommand p.regs offset, some (sectorCommand p.regs offset),
    polls'⟩, hwait.bind (hwait'.bind ?_)⟩
  rw [insl_sector drive m dst.toNat rfl hoffset]
  exact settles_const _

/-- The first sector, and those behind it. -/
theorem withSectors_succ (drive : BootDrive) (m : Memory) (base first n : Nat) :
    withSectors drive (withSectors drive m base first 1) (base + sectorSize)
        (first + 1) n = withSectors drive m base first (n + 1) := by
  have hmore : sectorSize * (n + 1) = sectorSize * n + sectorSize :=
    Nat.mul_succ sectorSize n
  have hfirst : sectorSize * (first + 1) = sectorSize * first + sectorSize :=
    Nat.mul_succ sectorSize first
  funext x
  simp only [withSectors, Nat.mul_one]
  by_cases hbehind : base + sectorSize ≤ x ∧ x < base + sectorSize + sectorSize * n
  · have hbyte : sectorSize * (first + 1) + (x - (base + sectorSize)) =
        sectorSize * first + (x - base) := by omega
    rw [if_pos hbehind, if_pos (by omega), hbyte]
  · rw [if_neg hbehind]
    exact if_congr (by omega) rfl rfl

theorem withSectors_zero (drive : BootDrive) (m : Memory) (base first : Nat) :
    withSectors drive m base first 0 = m :=
  funext fun x => if_neg (by omega)

end Sectors

section Segment

variable (drive : BootDrive) (endAddr : UInt32)

/-- The loop, `n` rounds before its end. -/
theorem segment_runs (n : Nat) (m : Memory) (p : IdePorts)
    (startAddr sectpos : UInt32)
    (hwrap : startAddr.toNat + 512 * n < 2 ^ 32)
    (hsectors : sectpos.toNat + n ≤ 2 ^ 28)
    (hmore : ∀ i < n, startAddr.toNat + 512 * i < endAddr.toNat)
    (hend : endAddr.toNat ≤ startAddr.toNat + 512 * n) :
    ∃ p', Runs .spin (segmentBody drive endAddr) ⟨m, p, startAddr, sectpos⟩
      (.ok (withSectors drive m startAddr.toNat sectpos.toNat n, p')) := by
  induction n generalizing m p startAddr sectpos with
  | zero =>
      have hdone : ¬ startAddr < endAddr := by
        rw [UInt32.lt_iff_toNat_lt]
        omega
      refine ⟨p, Runs.exit ?_⟩
      rw [withSectors_zero]
      simp only [segmentBody, hdone, ↓reduceIte]
      exact settles_const _
  | succ n ih =>
      have hgoes : startAddr < endAddr := by
        rw [UInt32.lt_iff_toNat_lt]
        have hfirst := hmore 0 (by omega)
        omega
      have hstart : (startAddr + 512).toNat = startAddr.toNat + 512 := by
        have h512 : (512 : UInt32).toNat = 512 := rfl
        rw [UInt32.toNat_add, h512]
        omega
      have hsector : (sectpos + 1).toNat = sectpos.toNat + 1 := by
        have hone : (1 : UInt32).toNat = 1 := rfl
        rw [UInt32.toNat_add, hone]
        omega
      obtain ⟨p₁, hread⟩ := readSectors_settles drive m p startAddr
        (show sectpos.toNat < 2 ^ 28 by omega)
      obtain ⟨p', hrest⟩ := ih
        (withSectors drive m startAddr.toNat sectpos.toNat 1) p₁
        (startAddr + 512) (sectpos + 1) (by omega)
        (by omega) (fun i hi => by
          have hnext := hmore (i + 1) (by omega)
          omega) (by omega)
      rw [hstart, hsector] at hrest
      have hsucc := withSectors_succ drive m startAddr.toNat sectpos.toNat n
      rw [← hsucc]
      refine ⟨p', Runs.next ?_ hrest⟩
      simp only [segmentBody, hgoes, ↓reduceIte]
      exact hread.bind (settles_const _)

end Segment

/-- The segment is loaded, in whole sectors and nowhere else: `k` is how many
cover it from where the first one goes. -/
theorem readSegment_loads (drive : BootDrive) (m : Memory) (p : IdePorts)
    (dst length offset : UInt32) (hdst : offset.toNat % 512 ≤ dst.toNat) {k : Nat}
    (hk : IsLeast {n | dst.toNat + length.toNat ≤
      dst.toNat - offset.toNat % 512 + 512 * n} k)
    (hwrap : dst.toNat - offset.toNat % 512 + 512 * k < 2 ^ 32)
    (hsectors : offset.toNat / 512 + k < 2 ^ 28) :
    ∃ m' p', Settles (fun fuel => readSegment drive fuel m p dst length offset)
        (.ok (m', p')) ∧
      (∀ i < length.toNat, m' (dst.toNat + i) =
        drive.byte (512 + offset.toNat + i)) ∧
      ∀ x, x ∉ Set.Ico (dst.toNat - offset.toNat % 512)
          (dst.toNat - offset.toNat % 512 + 512 * k) → m' x = m x := by
  have hcovers : dst.toNat + length.toNat ≤
      dst.toNat - offset.toNat % 512 + 512 * k := hk.1
  have hmod : (offset % 512).toNat = offset.toNat % 512 := UInt32.toNat_mod _ _
  have hdiv : (offset / 512).toNat = offset.toNat / 512 := UInt32.toNat_div _ _
  have hend : (dst + length).toNat = dst.toNat + length.toNat := by
    rw [UInt32.toNat_add]
    omega
  have hstart : (dst - offset % 512).toNat =
      dst.toNat - offset.toNat % 512 := by
    rw [UInt32.toNat_sub_of_le _ _ (by
      rw [UInt32.le_iff_toNat_le, hmod]
      exact hdst), hmod]
  have hsector : (offset / 512 + 1).toNat = offset.toNat / 512 + 1 := by
    have hone : (1 : UInt32).toNat = 1 := rfl
    rw [UInt32.toNat_add, hdiv, hone]
    omega
  have hmore : ∀ i < k, dst.toNat - offset.toNat % 512 + 512 * i <
      dst.toNat + length.toNat := by
    intro i hi
    by_contra hcover
    have hleast := hk.2 (show i ∈ {n | _} from Nat.le_of_not_lt hcover)
    omega
  obtain ⟨p', hruns⟩ := segment_runs drive (dst + length) k m p
    (dst - offset % 512) (offset / 512 + 1) (by omega) (by omega)
    (by rw [hstart, hend]; exact hmore) (by omega)
  rw [hstart, hsector] at hruns
  refine ⟨_, p', hruns.settles, fun i hi => ?_, fun x hx => ?_⟩
  · have hbyte : 512 * (offset.toNat / 512 + 1) +
        (dst.toNat + i - (dst.toNat - offset.toNat % 512)) =
        512 + offset.toNat + i := by omega
    refine (if_pos ⟨by omega, ?_⟩).trans (congrArg drive.byte hbyte)
    change _ < _ + 512 * k
    omega
  · exact if_neg hx

/-- A drive that is busy at every other poll. -/
def slowDrive : BootDrive where
  drives := fun _ sector i => UInt8.ofNat (sector + i)
  status := fun poll => if poll % 2 = 0 then 0x80 else 0x40
  ready := fun poll => ⟨2 * poll + 1, by omega, by
    have hodd : (2 * poll + 1) % 2 = 1 := by omega
    rw [hodd]
    decide⟩

/-- What `loader_start` reads. -/
theorem readSegment_loads_header :
    ∃ m' p', Settles (fun fuel => loaderStart slowDrive fuel (fun _ => 0)
        ⟨⟨0, 0, 0, 0, 0, 0, 0, none⟩, none, 0⟩) (.ok (m', p')) ∧
      (∀ i < 4096, m' (0x10000 + i) = slowDrive.byte (512 + i)) ∧
      ∀ x, x ∉ Set.Ico 0x10000 (0x10000 + 4096) → m' x = 0 := by
  have hk : IsLeast {n : Nat | 0x10000 + 4096 ≤ 0x10000 - 0 % 512 + 512 * n} 8 :=
    ⟨by decide, fun n hn => by
      have hcovers : 0x10000 + 4096 ≤ 0x10000 - 0 % 512 + 512 * n := hn
      omega⟩
  exact readSegment_loads slowDrive (fun _ => 0)
    ⟨⟨0, 0, 0, 0, 0, 0, 0, none⟩, none, 0⟩ 0x10000 4096 0 (by decide) hk
    (by decide) (by decide)

end Linda
