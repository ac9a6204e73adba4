/-
The sectors ide_execute names for a block: what a drive makes of the ports,
and which blocks keep their contents while others are written.
-/
import Linda.Disk
import Linda.IntervalCover

namespace Linda

open IntervalCover

/-- The bytes of the drives, by drive, sector and offset. -/
abbrev Drives := UInt8 → Nat → Nat → UInt8

namespace Command

/-- The first sector, from ports 0x1F3 to 0x1F6. -/
def start (c : Command) : Nat :=
  c.lba0.toNat + 2 ^ 8 * c.lba1.toNat + 2 ^ 16 * c.lba2.toNat +
    2 ^ 24 * (c.drive &&& 0x0F).toNat

/-- How many sectors, from port 0x1F2; there 0 stands for 256. -/
def length (c : Command) : Nat := if c.count = 0 then 256 else c.count.toNat

/-- Which drive, from bit 4 of port 0x1F6. -/
def unit (c : Command) : UInt8 := (c.drive >>> 4) &&& 1

def sectors (c : Command) : Interval := ⟨c.start, c.start + c.length⟩

/-- The drives once the command is done. -/
def perform (c : Command) (drives : Drives) : Drives :=
  match c.data with
  | none => drives
  | some data => fun unit sector offset =>
      if unit = c.unit ∧ sector ∈ c.sectors then
        data ((sector - c.start) * sectorSize + offset)
      else drives unit sector offset

/-- The bytes in the sectors of the command, which a read returns. -/
def content (c : Command) (drives : Drives) (i : Nat) : UInt8 :=
  drives c.unit (c.start + i / sectorSize) (i % sectorSize)

end Command

section Contents

variable {w r : Command} {drives : Drives} {i : Nat}

theorem Command.perform_not_mem {unit : UInt8} {sector offset : Nat}
    (h : unit = w.unit → sector ∉ w.sectors) :
    w.perform drives unit sector offset = drives unit sector offset := by
  unfold perform
  cases w.data with
  | none => rfl
  | some data => exact if_neg fun hmem => h hmem.1 hmem.2

theorem Command.sector_mem (hi : i < r.length * sectorSize) :
    r.start + i / sectorSize ∈ r.sectors := by
  have hsector := Nat.div_lt_of_lt_mul (Nat.mul_comm _ sectorSize ▸ hi)
  exact ⟨Nat.le_add_right r.start _, Nat.add_lt_add_left hsector r.start⟩

/-- A command leaves the sectors it does not name. -/
theorem Command.content_unchanged
    (h : w.unit = r.unit → w.sectors.Disjoint r.sectors)
    (hi : i < r.length * sectorSize) :
    r.content (w.perform drives) i = r.content drives i := by
  apply perform_not_mem
  intro hunit hmem
  exact h hunit.symm _ hmem (sector_mem hi)

/-- A write puts its data into every sector it names. -/
theorem Command.content_overwritten {data : Nat → UInt8}
    (hdata : w.data = some data) (hunit : w.unit = r.unit)
    (h : ¬ w.sectors.Disjoint r.sectors) :
    ∃ i < r.length * sectorSize, ∃ k, ∀ drives,
      r.content (w.perform drives) i = data k := by
  unfold Interval.Disjoint at h
  push Not at h
  obtain ⟨sector, hw, hr⟩ := h
  have hsector : r.start + (sector - r.start) = sector :=
    Nat.add_sub_cancel' hr.1
  have hpos : 0 < sectorSize := by decide
  refine ⟨(sector - r.start) * sectorSize, ?_,
    (sector - w.start) * sectorSize, fun drives => ?_⟩
  · apply Nat.mul_lt_mul_of_pos_right _ hpos
    exact Nat.sub_lt_left_of_lt_add hr.1 hr.2
  · rw [content, Nat.mul_div_cancel _ hpos, Nat.mul_mod_left, perform, hdata]
    dsimp only
    rw [hsector, if_pos ⟨hunit.symm, hw⟩, Nat.add_zero]

end Contents

section Ports

variable (buf : Buf)

theorem nat_and_nibble (n : Nat) : n &&& 0x0F = n % 2 ^ 4 :=
  Nat.and_two_pow_sub_one_eq_mod n 4

theorem nat_and_byte (n : Nat) : n &&& 0xFF = n % 2 ^ 8 :=
  Nat.and_two_pow_sub_one_eq_mod n 8

/-- Port 0x1F6 as a number. -/
theorem ideCommand_drive :
    (ideCommand buf).drive.toNat =
      (224 ||| buf.blockno.toNat / 2 ^ 24 % 2 ^ 4 |||
        buf.dev.toNat * 2 ^ 4 % 2 ^ 32) % 2 ^ 8 := by
  simp only [ideCommand, UInt32.toNat_toUInt8, UInt32.toNat_or,
    UInt32.toNat_and, UInt32.toNat_shiftRight, UInt32.toNat_shiftLeft,
    UInt32.reduceToNat, nat_and_nibble, Nat.shiftRight_eq_div_pow,
    Nat.shiftLeft_eq, Nat.reduceMod]

/-- The drive bit and the constant leave the head bits alone. -/
theorem ideCommand_head :
    ((ideCommand buf).drive &&& 0x0F).toNat =
      buf.blockno.toNat / 2 ^ 24 % 2 ^ 4 := by
  have hdev : buf.dev.toNat * 2 ^ 4 % 2 ^ 32 % 2 ^ 4 = 0 := by omega
  rw [UInt8.toNat_and, ideCommand_drive]
  change _ &&& 15 = _
  rw [nat_and_nibble, Nat.mod_mod_of_dvd _ (by decide), Nat.or_mod_two_pow, Nat.or_mod_two_pow,
    hdev, Nat.or_zero, Nat.mod_mod]
  exact Nat.zero_or _

theorem ideCommand_start :
    (ideCommand buf).start = buf.blockno.toNat % 2 ^ 28 := by
  rw [Command.start, ideCommand_head]
  simp only [ideCommand, UInt32.toNat_toUInt8, UInt32.toNat_and,
    UInt32.toNat_shiftRight, UInt32.reduceToNat, nat_and_byte,
    Nat.shiftRight_eq_div_pow, Nat.reduceMod]
  omega

theorem ideCommand_unit :
    (ideCommand buf).unit.toNat = buf.dev.toNat % 2 := by
  have hhead : buf.blockno.toNat / 2 ^ 24 % 2 ^ 4 / 2 ^ 4 = 0 := by omega
  have hdev : buf.dev.toNat * 2 ^ 4 % 2 ^ 32 / 2 ^ 4 % 2 ^ 1 =
      buf.dev.toNat % 2 := by omega
  have hbit (n : Nat) : n % 2 ^ 8 / 2 ^ 4 % 2 ^ 1 = n / 2 ^ 4 % 2 ^ 1 := by omega
  rw [Command.unit, UInt8.toNat_and, UInt8.toNat_shiftRight, ideCommand_drive]
  change (_ % 2 ^ 8) >>> 4 &&& 2 ^ 1 - 1 = _
  rw [Nat.and_two_pow_sub_one_eq_mod, Nat.shiftRight_eq_div_pow, hbit,
    Nat.or_div_two_pow, Nat.or_div_two_pow, Nat.or_mod_two_pow,
    Nat.or_mod_two_pow, hhead, hdev]
  exact Nat.zero_or _

end Ports

/-- The buffer as `buf_write` gets it from an owner who changed its data. -/
def dirtied (buf : Buf) (data : Nat → UInt8) : Buf :=
  { buf with flags := buf.flags ||| bDirty, data := data }

/-- The blocks of two buffers share no sector of a drive, and no write of the
first changes what a read of the second returns. -/
structure Apart (w r : Buf) : Prop where
  disjoint : (ideCommand w).unit = (ideCommand r).unit →
    (ideCommand w).sectors.Disjoint (ideCommand r).sectors
  unchanged : ∀ data drives, ∀ i < blockSize,
    (ideCommand r).content ((ideCommand (dirtied w data)).perform drives) i =
      (ideCommand r).content drives i

section Blocks

variable {w r : Buf}

theorem ideCommand_length (buf : Buf) : (ideCommand buf).length = 2 := rfl

theorem blockSize_eq (buf : Buf) :
    blockSize = (ideCommand buf).length * sectorSize := by
  rw [ideCommand_length]
  decide

theorem sectors_pos (buf : Buf) :
    (ideCommand buf).sectors.lo < (ideCommand buf).sectors.hi :=
  Nat.lt_add_of_pos_right
    (Nat.lt_of_lt_of_eq Nat.two_pos (ideCommand_length buf).symm)

theorem dirtied_data (buf : Buf) (data : Nat → UInt8) :
    (ideCommand (dirtied buf data)).data = some data := by
  have hdirty : (buf.flags ||| bDirty) &&& bDirty = bDirty := by
    apply UInt32.eq_of_toBitVec_eq
    rw [UInt32.toBitVec_and, UInt32.toBitVec_or]
    grind
  apply if_pos
  dsimp only [dirtied]
  rw [hdirty]
  decide

/-- A write spares the other block exactly when they share no sector. -/
theorem unchanged_iff :
    (∀ data drives, ∀ i < blockSize,
      (ideCommand r).content ((ideCommand (dirtied w data)).perform drives) i =
        (ideCommand r).content drives i) ↔
      ((ideCommand w).unit = (ideCommand r).unit →
        (ideCommand w).sectors.Disjoint (ideCommand r).sectors) := by
  rw [blockSize_eq r]
  constructor
  · intro hunchanged hunit
    by_contra hshared
    obtain ⟨i, hi, k, hcontent⟩ := Command.content_overwritten
      (dirtied_data w fun _ => 1) hunit hshared
    have hold := hunchanged (fun _ => 1) (fun _ _ _ => 0) i hi
    rw [hcontent] at hold
    cases hold
  · intro h data drives i hi
    exact Command.content_unchanged h hi

theorem sectors_disjoint_iff (hw : w.blockno.toNat < 2 ^ 28)
    (hr : r.blockno.toNat < 2 ^ 28) :
    (ideCommand w).sectors.Disjoint (ideCommand r).sectors ↔
      w.blockno.toNat + 2 ≤ r.blockno.toNat ∨
        r.blockno.toNat + 2 ≤ w.blockno.toNat := by
  rw [Interval.disjoint_iff (sectors_pos w) (sectors_pos r), Command.sectors,
    Command.sectors, ideCommand_start, ideCommand_start, ideCommand_length,
    ideCommand_length, Nat.mod_eq_of_lt hw, Nat.mod_eq_of_lt hr]

theorem unit_eq_iff (hw : w.dev = 0 ∨ w.dev = 1) (hr : r.dev = 0 ∨ r.dev = 1) :
    (ideCommand w).unit = (ideCommand r).unit ↔ w.dev = r.dev := by
  rw [← UInt8.toNat_inj, ideCommand_unit, ideCommand_unit]
  rcases hw with hw | hw <;> rcases hr with hr | hr <;> rw [hw, hr] <;> decide

end Blocks

/-- Two blocks are apart exactly when they are on different drives or their
numbers differ by two at least. -/
theorem apart_iff {w r : Buf} (hwdev : w.dev = 0 ∨ w.dev = 1)
    (hrdev : r.dev = 0 ∨ r.dev = 1) (hw : w.blockno.toNat < 2 ^ 28)
    (hr : r.blockno.toNat < 2 ^ 28) :
    Apart w r ↔ (w.dev = r.dev → w.blockno.toNat + 2 ≤ r.blockno.toNat ∨
      r.blockno.toNat + 2 ≤ w.blockno.toNat) := by
  rw [← sectors_disjoint_iff hw hr, ← unit_eq_iff hwdev hrdev]
  constructor
  · exact fun h => h.disjoint
  · exact fun h => ⟨h, unchanged_iff.mpr h⟩

theorem apart_two_blocks :
    Apart { zeroBuf with blockno := 7 } { zeroBuf with blockno := 9 } :=
  (apart_iff (Or.inl rfl) (Or.inl rfl) (by decide) (by decide)).mpr
    fun _ => Or.inl (by decide)

/-- Blocks 0 and 1 share the sector 1, and writing the one changes the
other. -/
theorem neighbours_overlap :
    ¬ (ideCommand zeroBuf).sectors.Disjoint
        (ideCommand { zeroBuf with blockno := 1 }).sectors ∧
      (ideCommand { zeroBuf with blockno := 1 }).content
        ((ideCommand (dirtied zeroBuf fun _ => 1)).perform fun _ _ _ => 0) 0 ≠
      (ideCommand { zeroBuf with blockno := 1 }).content
        (fun _ _ _ => 0) 0 := by
  constructor
  · intro h
    exact h 1 (by decide) (by decide)
  · decide

end Linda
