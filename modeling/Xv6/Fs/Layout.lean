import Xv6.Param

/-!
# `fs.h`: the on-disk format

* the layout constants `ROOTINO`, `BSIZE`, `NDIRECT`, `NINDIRECT`, `MAXFILE`, `IPB`, `BPB`,
  `DIRSIZ`, and the file types of `stat.h`;
* `Dinode` : `struct dinode`;
* `Block` : the bytes of a disk block, with the `uint` array view the indirect blocks are read
  and written through (`Block.getUint`, `Block.setUint`, little-endian as on x86);
* `Dirent` : `struct dirent` and its 16 bytes on disk;
* `Superblock`, `BBLOCK`, and the bits of a bitmap block (`Block.bitSet`, `Block.setBit`,
  `Block.clearBit`, read back by `bitSet_setBit`, `bitSet_clearBit`);
* `blockAddr` : the address the block map of an inode gives for a file block, `0` where
  `bmap` would have to allocate.
-/

namespace Xv6

/-- The root i-number. -/
def ROOTINO : Nat := 1

/-- Block size. -/
def BSIZE : Nat := 512

def NDIRECT : Nat := 12

/-- `BSIZE / sizeof(uint)`. -/
def NINDIRECT : Nat := BSIZE / 4

def MAXFILE : Nat := NDIRECT + NINDIRECT

/-- Inodes per block: `BSIZE / sizeof(struct dinode)`, a `dinode` being 64 bytes. -/
def IPB : Nat := BSIZE / 64

/-- Bitmap bits per block. -/
def BPB : Nat := BSIZE * 8

def DIRSIZ : Nat := 14

/-- `T_DIR` (`stat.h`). -/
def T_DIR : Int := 1

/-- `T_FILE` (`stat.h`). -/
def T_FILE : Int := 2

/-- `T_DEV` (`stat.h`). -/
def T_DEV : Int := 3

/-- `struct dinode`. The `short` fields are `Int`s and the `uint` ones `Nat`s: no value the file
system stores in them wraps. -/
structure Dinode where
  type : Int
  major : Int
  minor : Int
  nlink : Int
  size : Nat
  addrs : Fin (NDIRECT + 1) → Nat

/-- A zeroed `dinode`. -/
def Dinode.zero : Dinode := ⟨0, 0, 0, 0, 0, fun _ => 0⟩

/-- The slot `addrs[NDIRECT]` of the indirect block. -/
def indirectSlot : Fin (NDIRECT + 1) := Fin.last NDIRECT

/-- The bytes of a disk block. -/
abbrev Block := Fin BSIZE → UInt8

/-- A block of zeroes. -/
def zeroes : Block := fun _ => 0

/-- Byte `i` of the `uint` at index `k` of a block. -/
def uintByte (k : Fin NINDIRECT) (i : Fin 4) : Fin BSIZE :=
  ⟨4 * k.val + i.val, by
    have hk := k.isLt
    have hi := i.isLt
    simp only [NINDIRECT, BSIZE] at hk ⊢
    omega⟩

/-- `((uint*)data)[k]`. -/
def Block.getUint (b : Block) (k : Fin NINDIRECT) : Nat :=
  (b (uintByte k 0)).toNat + 256 * (b (uintByte k 1)).toNat + 65536 * (b (uintByte k 2)).toNat +
    16777216 * (b (uintByte k 3)).toNat

/-- `((uint*)data)[k] = v`. -/
def Block.setUint (b : Block) (k : Fin NINDIRECT) (v : Nat) : Block := fun j =>
  if j.val / 4 = k.val then (v / 256 ^ (j.val % 4) % 256).toUInt8 else b j

/-- `struct dirent`: `inum` and the `DIRSIZ` bytes of the name. -/
structure Dirent where
  inum : Nat
  name : List UInt8

/-- The name field `strncpy(de.name, s, DIRSIZ)` leaves: at most `DIRSIZ` bytes of `s`, then zeroes. -/
def strncpy (s : List UInt8) : List UInt8 :=
  s.take DIRSIZ ++ List.replicate (DIRSIZ - s.length) 0

/-- The 16 bytes of a `dirent`: `inum` as a little-endian `ushort`, then the name. -/
def Dirent.bytes (de : Dirent) : List UInt8 :=
  (de.inum % 256).toUInt8 :: (de.inum / 256 % 256).toUInt8 :: de.name

@[simp] theorem strncpy_length (s : List UInt8) : (strncpy s).length = DIRSIZ := by
  simp only [strncpy, List.length_append, List.length_take, List.length_replicate]
  omega

theorem Dirent.bytes_length (inum : Nat) (s : List UInt8) :
    (Dirent.bytes ⟨inum, strncpy s⟩).length = 16 := by
  simp [Dirent.bytes, DIRSIZ]

/-- `struct superblock`. -/
structure Superblock where
  size : Nat
  nblocks : Nat
  ninodes : Nat
  nlog : Nat
  logstart : Nat
  inodestart : Nat
  bmapstart : Nat

/-- Block of free map containing bit for block `b`. -/
def BBLOCK (b : Nat) (sb : Superblock) : Nat := b / BPB + sb.bmapstart

/-! ## Bitmap blocks

Bit `bi` of a bitmap block is bit `bi % 8` of byte `bi / 8`, tested and set through the mask
`1 << (bi % 8)` as `balloc`, `bfree` and mkfs's `balloc` do. -/

/-- The byte `bi / 8` of bit `bi`; the reduction mod `BSIZE` only gives the index its bound, the
callers passing `bi < BPB`. -/
def bitByte (bi : Nat) : Fin BSIZE := ⟨bi / 8 % BSIZE, Nat.mod_lt _ (by decide)⟩

/-- `m = 1 << (bi % 8)`. -/
def bitMask (bi : Nat) : UInt8 := 1 <<< (bi % 8).toUInt8

/-- `(data[bi/8] & m) != 0`. -/
def Block.bitSet (blk : Block) (bi : Nat) : Bool := blk (bitByte bi) &&& bitMask bi != 0

/-- `data[bi/8] |= m`. -/
def Block.setBit (blk : Block) (bi : Nat) : Block :=
  Function.update blk (bitByte bi) (blk (bitByte bi) ||| bitMask bi)

/-- `data[bi/8] &= ~m`. -/
def Block.clearBit (blk : Block) (bi : Nat) : Block :=
  Function.update blk (bitByte bi) (blk (bitByte bi) &&& ~~~bitMask bi)

theorem maskNat (k : Fin 8) : (1 <<< k.val.toUInt8 : UInt8).toNat = 2 ^ k.val := by
  revert k
  decide

theorem maskBit (k j : Fin 8) :
    (UInt8.toBitVec 1 <<< (k.val.toUInt8.toBitVec % 8)).getLsbD j = (k == j) := by
  revert k j
  decide

/-- The mask test reads bit `k` of the byte. -/
theorem mask_test (x : UInt8) (k : Fin 8) :
    (x &&& 1 <<< k.val.toUInt8 != 0) = x.toNat.testBit k := by
  have h : (x &&& 1 <<< k.val.toUInt8).toNat = (x.toNat.testBit k).toNat * 2 ^ k.val := by
    rw [UInt8.toNat_and, maskNat, Nat.and_two_pow]
  have hpos : 0 < 2 ^ k.val := Nat.two_pow_pos _
  cases hb : x.toNat.testBit k
  · rw [hb, Bool.toNat_false, zero_mul, ← UInt8.toNat_zero, UInt8.toNat_inj] at h
    simp [h]
  · rw [hb, Bool.toNat_true, one_mul] at h
    have hne : (x &&& 1 <<< k.val.toUInt8) ≠ 0 := by
      intro h0
      rw [h0, UInt8.toNat_zero] at h
      omega
    simpa using hne

theorem testBit_or_mask (x : UInt8) (k j : Fin 8) :
    (x ||| 1 <<< k.val.toUInt8).toNat.testBit j = (x.toNat.testBit j || k == j) := by
  simp only [← UInt8.toNat_toBitVec, BitVec.testBit_toNat, UInt8.toBitVec_or,
    UInt8.toBitVec_shiftLeft, BitVec.getLsbD_or, maskBit]

theorem testBit_and_not_mask (x : UInt8) (k j : Fin 8) :
    (x &&& ~~~(1 <<< k.val.toUInt8)).toNat.testBit j = (x.toNat.testBit j && k != j) := by
  simp only [← UInt8.toNat_toBitVec, BitVec.testBit_toNat, UInt8.toBitVec_and,
    UInt8.toBitVec_not, UInt8.toBitVec_shiftLeft, BitVec.getLsbD_and, BitVec.getLsbD_not, maskBit,
    j.isLt, decide_true, Bool.true_and, bne]

/-- The bit of `bi` within its byte. -/
def bitPos (bi : Nat) : Fin 8 := ⟨bi % 8, Nat.mod_lt _ (by decide)⟩

theorem bitMask_eq (bi : Nat) : bitMask bi = 1 <<< (bitPos bi).val.toUInt8 := rfl

theorem bitSet_eq (blk : Block) (bi : Nat) :
    blk.bitSet bi = (blk (bitByte bi)).toNat.testBit (bitPos bi) := by
  rw [Block.bitSet, bitMask_eq, mask_test]

/-- Two bits below `BPB` share a byte and a position only if they are the same bit. -/
theorem bit_eq_iff {i j : Nat} (hi : i < BPB) (hj : j < BPB) (hb : bitByte i = bitByte j) :
    bitPos i = bitPos j ↔ i = j := by
  have hij : i / 8 = j / 8 := by
    have h := congrArg Fin.val hb
    simp only [bitByte, BPB, BSIZE] at h hi hj
    omega
  constructor
  · intro hp
    have h := congrArg Fin.val hp
    simp only [bitPos] at h
    omega
  · rintro rfl
    rfl

@[simp] theorem bitSet_setBit (blk : Block) {i j : Nat} (hi : i < BPB) (hj : j < BPB) :
    (blk.setBit i).bitSet j = (blk.bitSet j || i == j) := by
  rw [bitSet_eq, bitSet_eq, Block.setBit]
  by_cases hb : bitByte i = bitByte j
  · have hbeq : (bitPos i == bitPos j) = (i == j) := by
      rw [Bool.eq_iff_iff, beq_iff_eq, beq_iff_eq, bit_eq_iff hi hj hb]
    rw [← hb, Function.update_self, bitMask_eq, testBit_or_mask, hb, hbeq]
  · have hne : i ≠ j := fun h => hb (congrArg bitByte h)
    rw [Function.update_of_ne (Ne.symm hb)]
    simp [hne]

@[simp] theorem bitSet_clearBit (blk : Block) {i j : Nat} (hi : i < BPB) (hj : j < BPB) :
    (blk.clearBit i).bitSet j = (blk.bitSet j && i != j) := by
  rw [bitSet_eq, bitSet_eq, Block.clearBit]
  by_cases hb : bitByte i = bitByte j
  · have hbeq : (bitPos i == bitPos j) = (i == j) := by
      rw [Bool.eq_iff_iff, beq_iff_eq, beq_iff_eq, bit_eq_iff hi hj hb]
    rw [← hb, Function.update_self, bitMask_eq, testBit_and_not_mask, hb, bne, bne, hbeq]
  · have hne : i ≠ j := fun h => hb (congrArg bitByte h)
    rw [Function.update_of_ne (Ne.symm hb)]
    simp [hne]

@[simp] theorem bitSet_zeroes (bi : Nat) : zeroes.bitSet bi = false := by
  simp [Block.bitSet, zeroes]

end Xv6
