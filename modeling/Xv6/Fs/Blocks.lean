import Xv6.Fs.Layout

/-!
# `fs.c`: blocks and the block map of an inode

* `Dev` : the disk as the kernel reads it through the buffer cache, with the blocks passed to
  `log_write` since the running operation's `begin_op`;
* `bzero`, `balloc` (`freeBit` is its scan of one bitmap block) and `bfree`;
* `bmap` (`slotAddr` is a slot of `addrs`, allocated if it is `0`), and `blockAddr`, the
  address it gives without allocating;
* `readi` and `writei` on an inode's data, their loops being `readiLoop` and `writeiLoop`.

What they read and write, against the bytes of the file, is `Xv6.Fs.Data`'s concern.
-/

namespace Xv6

/-- The disk through the buffer cache, and the blocks passed to `log_write` in the running
operation, in the order of the calls. -/
structure Dev where
  disk : Nat → Block
  logged : List Nat

/-- The buffer of block `b` given the contents `blk`, then `log_write(bp)`. -/
def Dev.write (d : Dev) (b : Nat) (blk : Block) : Dev :=
  ⟨Function.update d.disk b blk, d.logged ++ [b]⟩

@[simp] theorem Dev.write_logged (d : Dev) (b : Nat) (blk : Block) :
    (d.write b blk).logged = d.logged ++ [b] := rfl

@[simp] theorem Dev.write_disk (d : Dev) (b : Nat) (blk : Block) :
    (d.write b blk).disk = Function.update d.disk b blk := rfl

/-- Zero a block. -/
def bzero (d : Dev) (bno : Nat) : Dev := d.write bno zeroes

/-- `ip->addrs[i] = a`. -/
def Dinode.setAddr (ip : Dinode) (i : Fin (NDIRECT + 1)) (a : Nat) : Dinode :=
  { ip with addrs := Function.update ip.addrs i a }

/-- `memmove(data + start, src, m)` for the `m` bytes `src`. -/
def Block.copyIn (blk : Block) (start : Nat) (src : List UInt8) : Block := fun j =>
  if start ≤ j.val ∧ j.val < start + src.length then src.getD (j.val - start) 0 else blk j

/-- The slot `addrs[bn]` of a direct block. -/
def directSlot (bn : Nat) (h : bn < NDIRECT) : Fin (NDIRECT + 1) := ⟨bn, by omega⟩

section Kernel

variable (sb : Superblock)

/-- The inner loop of `balloc` over the bitmap block of `b`: the first `bi < BPB` with
`b + bi < sb.size` whose bit is clear. -/
def freeBit (d : Dev) (b : Nat) : Option Nat :=
  (List.range (min BPB (sb.size - b))).find? fun bi => !(d.disk (BBLOCK b sb)).bitSet bi

/-- Allocate a zeroed disk block. The outer loop steps `b` through `0, BPB, 2 BPB, ...` below
`sb.size`. -/
def balloc (d : Dev) : Option (Nat × Dev) :=
  match (List.range ((sb.size + BPB - 1) / BPB)).findSome? fun k =>
      (freeBit sb d (k * BPB)).map fun bi => (k * BPB, bi) with
  | some (b, bi) =>
    let bp := BBLOCK b sb
    some (b + bi, bzero (d.write bp ((d.disk bp).setBit bi)) (b + bi))
  | none => none  -- panic("balloc: out of blocks")

/-- Free a disk block. -/
def bfree (d : Dev) (b : Nat) : Option Dev :=
  let bp := BBLOCK b sb
  let bi := b % BPB
  if (d.disk bp).bitSet bi then some (d.write bp ((d.disk bp).clearBit bi))
  else none  -- panic("freeing free block")

/-- The address in slot `i` of `addrs`, allocated if it is `0`: the first step of both
branches of `bmap`. -/
def slotAddr (ip : Dinode) (i : Fin (NDIRECT + 1)) (d : Dev) : Option (Nat × Dinode × Dev) :=
  if ip.addrs i = 0 then
    (balloc sb d).map fun (addr, d) => (addr, ip.setAddr i addr, d)
  else some (ip.addrs i, ip, d)

/-- Return the disk block address of the `bn`th block in inode `ip`, allocating it if there
is none. The entry of the indirect block is read before `balloc` and written after it, as the
buffer `bp` is. -/
def bmap (ip : Dinode) (bn : Nat) (d : Dev) : Option (Nat × Dinode × Dev) :=
  if h : bn < NDIRECT then slotAddr sb ip (directSlot bn h) d
  else if h' : bn - NDIRECT < NINDIRECT then do
    -- Load indirect block, allocating if necessary.
    let (ind, ip, d) ← slotAddr sb ip indirectSlot d
    let k : Fin NINDIRECT := ⟨bn - NDIRECT, h'⟩
    if (d.disk ind).getUint k = 0 then do
      let (addr, d) ← balloc sb d
      some (addr, ip, d.write ind ((d.disk ind).setUint k addr))
    else some ((d.disk ind).getUint k, ip, d)
  else none  -- panic("bmap: out of range")

/-- The copy loop of `readi`: `left` bytes from offset `off`, each pass taking the rest of one
block. The fuel bounds the passes, each taking at least one byte. -/
def readiLoop : Nat → Dinode → Nat → Nat → Dev → Option (List UInt8 × Dinode × Dev)
  | _, ip, _, 0, d => some ([], ip, d)
  | 0, _, _, _ + 1, _ => none
  | fuel + 1, ip, off, left + 1, d => do
    let (addr, ip, d) ← bmap sb ip (off / BSIZE) d
    let m := min (left + 1) (BSIZE - off % BSIZE)
    let bytes := ((List.ofFn (d.disk addr)).drop (off % BSIZE)).take m
    let (rest, ip, d) ← readiLoop fuel ip (off + m) (left + 1 - m) d
    some (bytes ++ rest, ip, d)

/-- Read data from inode: the count returned and the bytes copied to `dst`. Device inodes
(`devsw`) are outside the model. The offsets are `uint`s, so `off + n < off` is an overflow. -/
def readi (ip : Dinode) (off n : Nat) (d : Dev) : Option (Int × List UInt8 × Dinode × Dev) :=
  if ip.type = T_DEV then none
  else if ip.size < off ∨ 2 ^ 32 ≤ off + n then some (-1, [], ip, d)
  else
    let n := if ip.size < off + n then ip.size - off else n
    (readiLoop sb n ip off n d).map fun (dst, ip, d) => (n, dst, ip, d)

/-- The copy loop of `writei`: the bytes `src` at offset `off`, each pass filling the rest of one
block and passing it to `log_write`. The fuel bounds the passes, each taking at least one byte. -/
def writeiLoop : Nat → Dinode → Nat → List UInt8 → Dev → Option (Dinode × Dev)
  | _, ip, _, [], d => some (ip, d)
  | 0, _, _, _ :: _, _ => none
  | fuel + 1, ip, off, b :: src, d => do
    let (addr, ip, d) ← bmap sb ip (off / BSIZE) d
    let m := min (src.length + 1) (BSIZE - off % BSIZE)
    let d := d.write addr ((d.disk addr).copyIn (off % BSIZE) ((b :: src).take m))
    writeiLoop fuel ip (off + m) ((b :: src).drop m) d

/-- Write data to inode: the count returned, the inode and the disk, for the `n` bytes `src`. A
write past the end grows `size` to it, and `iupdate` writes the inode back: the inode returned,
`Dev` holding no inode blocks. Device inodes are outside the model. -/
def writei (ip : Dinode) (src : List UInt8) (off : Nat) (d : Dev) : Option (Int × Dinode × Dev) :=
  if ip.type = T_DEV then none
  else if ip.size < off ∨ 2 ^ 32 ≤ off + src.length then some (-1, ip, d)
  else if MAXFILE * BSIZE < off + src.length then some (-1, ip, d)
  else
    (writeiLoop sb src.length ip off src d).map fun (ip, d) =>
      -- after the loop `off` has moved past the `n` bytes
      (src.length, if 0 < src.length ∧ ip.size < off + src.length then { ip with size := off + src.length }
        else ip, d)

end Kernel

/-- The address the block map of `ip` gives for block `bn`: `0` where `bmap` allocates. -/
def blockAddr (disk : Nat → Block) (ip : Dinode) (bn : Nat) : Nat :=
  if h : bn < NDIRECT then ip.addrs (directSlot bn h)
  else if h' : bn - NDIRECT < NINDIRECT then
    if ip.addrs indirectSlot = 0 then 0
    else (disk (ip.addrs indirectSlot)).getUint ⟨bn - NDIRECT, h'⟩
  else 0

/-! ## One bitmap block

With `sb.size ≤ BPB` (`FSSIZE = 1000` against `BPB = 4096`) the outer loop of `balloc` makes
one pass, over bitmap block `BBLOCK 0 sb`. -/

section OneBitmap

variable {sb : Superblock}

theorem balloc_of_size_le (h0 : 0 < sb.size) (hle : sb.size ≤ BPB) (d : Dev) :
    balloc sb d = (freeBit sb d 0).map fun bi =>
      (bi, bzero (d.write (BBLOCK 0 sb) ((d.disk (BBLOCK 0 sb)).setBit bi)) bi) := by
  have hk : (sb.size + BPB - 1) / BPB = 1 := by
    simp only [BPB, BSIZE] at hle ⊢
    omega
  unfold balloc
  rw [hk]
  rcases hf : freeBit sb d 0 with _ | bi <;> simp [hf]

/-- On a bitmap block whose set bits are exactly those below `used`, the scan finds `used`. -/
theorem freeBit_of_prefix {d : Dev} {used : Nat} (hu : used < sb.size) (hle : sb.size ≤ BPB)
    (hbits : ∀ bi < sb.size, (d.disk (BBLOCK 0 sb)).bitSet bi = decide (bi < used)) :
    freeBit sb d 0 = some used := by
  unfold freeBit
  rw [List.find?_range_eq_some]
  have hmin : min BPB (sb.size - 0) = sb.size := by omega
  refine ⟨by simp [hbits used hu], by rw [hmin, List.mem_range]; exact hu, fun j hj => ?_⟩
  simp [hbits j (by omega), hj]

end OneBitmap

/-! ## `bmap` and `readi` where a block is missing -/

section Hole

variable {sb : Superblock}

theorem bmap_direct_hole {ip : Dinode} {bn : Nat} {d : Dev} (h : bn < NDIRECT)
    (h0 : ip.addrs (directSlot bn h) = 0) :
    bmap sb ip bn d = (balloc sb d).map fun (addr, d) => (addr, ip.setAddr (directSlot bn h) addr, d) := by
  simp [bmap, h, slotAddr, h0]

theorem readiLoop_block {fuel off : Nat} {ip ip' : Dinode} {d d' : Dev} {a : Nat}
    (hfuel : 0 < fuel) (hoff : off % BSIZE = 0)
    (hb : bmap sb ip (off / BSIZE) d = some (a, ip', d')) :
    readiLoop sb fuel ip off BSIZE d = some (List.ofFn (d'.disk a), ip', d') := by
  obtain ⟨fuel, rfl⟩ : ∃ k, fuel = k + 1 := ⟨fuel - 1, by omega⟩
  have hm : min 512 BSIZE = 512 := rfl
  have htake : (List.ofFn (d'.disk a)).take 512 = List.ofFn (d'.disk a) :=
    List.take_of_length_le (by rw [List.length_ofFn]; decide)
  show readiLoop sb (fuel + 1) ip off (511 + 1) d = _
  simp [readiLoop, hb, hoff, hm, htake]

/-- `readi` of a whole block in a direct slot that is `0` below `size`: `bmap` allocates it. -/
theorem readi_hole {ip : Dinode} {bn a : Nat} {d d' : Dev} (hdev : ip.type ≠ T_DEV)
    (h : bn < NDIRECT) (h0 : ip.addrs (directSlot bn h) = 0) (hsize : (bn + 1) * BSIZE ≤ ip.size)
    (hwrap : ip.size < 2 ^ 32) (hb : balloc sb d = some (a, d')) :
    readi sb ip (bn * BSIZE) BSIZE d =
      some ((BSIZE : Int), List.ofFn (d'.disk a), ip.setAddr (directSlot bn h) a, d') := by
  have hoff : bn * BSIZE % BSIZE = 0 := Nat.mul_mod_left _ _
  have hdiv : bn * BSIZE / BSIZE = bn := by simp [BSIZE]
  have hbmap : bmap sb ip (bn * BSIZE / BSIZE) d = some (a, ip.setAddr (directSlot bn h) a, d') := by
    rw [hdiv, bmap_direct_hole h h0, hb]
    rfl
  have hle : ¬ (ip.size < bn * BSIZE ∨ 2 ^ 32 ≤ bn * BSIZE + BSIZE) := by
    rw [Nat.add_one_mul] at hsize
    omega
  have hfit : ¬ ip.size < bn * BSIZE + BSIZE := by
    rw [Nat.add_one_mul] at hsize
    omega
  simp only [readi, hdev, hle, hfit, if_false]
  have hpos : 0 < BSIZE := by simp [BSIZE]
  simp only [readiLoop_block hpos hoff hbmap, Option.map_some]

end Hole

end Xv6
