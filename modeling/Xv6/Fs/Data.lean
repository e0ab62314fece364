import Xv6.Fs.Blocks

/-!
# The bytes of an inode: `readi` and `writei`

`fileByte disk ip p` is byte `p` of the file `ip`, read through its block map, `0` in a block the
map does not hold (there `bmap` allocates a zeroed block). The kernel keeps the map consistent
with the free map, `AllocInv`: the blocks the inode holds are distinct, marked in use, and none is
a block of the free map itself, which marks its own blocks in use. Under it:

* `balloc_spec`, `AllocInv.balloc` : `balloc` takes a block no one holds, zeroed, from the free
  map, one fewer block free (`freeCount`);
* `bmap_spec` : `bmap` returns the block the map gives, allocating what is missing, and changes
  no byte of the file; it allocates `bmapCost` blocks, and does not run out when that many are
  free;
* `fileByte_copyIn`, `AllocInv.update_held` : a `memmove` into the block of one file block writes
  the file's bytes in that range (`patch`) and no others, and keeps the invariant;
* `readiLoop_spec`, `writeiLoop_spec` : the loops read and write the bytes of the file from
  `off`, allocating `allocNeeds` blocks over the file blocks they cross (`spanBlocks`);
* `readi_spec`, `writei_spec`, `readi_neg_one_iff`, `writei_neg_one_iff` : the calls.
-/

namespace Xv6

/-- Byte `p` of the file `ip`. -/
def fileByte (disk : Nat → Block) (ip : Dinode) (p : Nat) : UInt8 :=
  if blockAddr disk ip (p / BSIZE) = 0 then 0
  else disk (blockAddr disk ip (p / BSIZE)) ⟨p % BSIZE, Nat.mod_lt _ (by decide)⟩

/-- The `n` bytes of the file from `off`. -/
def fileBytes (disk : Nat → Block) (ip : Dinode) (off n : Nat) : List UInt8 :=
  (List.range n).map fun i => fileByte disk ip (off + i)

/-- The bytes `f` with `src` written over them from `off`. -/
def patch (f : Nat → UInt8) (off : Nat) (src : List UInt8) (p : Nat) : UInt8 :=
  if off ≤ p ∧ p < off + src.length then src.getD (p - off) 0 else f p

/-- The free-map bit of block `x`: set when `x` is in use. -/
def bitOf (sb : Superblock) (disk : Nat → Block) (x : Nat) : Bool :=
  (disk (BBLOCK x sb)).bitSet (x % BPB)

/-- The number of free blocks. -/
def freeCount (sb : Superblock) (disk : Nat → Block) : Nat :=
  ((Finset.range sb.size).filter fun x => bitOf sb disk x = false).card

/-- The inode holds block `z`: as its indirect block or as one of its data blocks. -/
def Dinode.Holds (disk : Nat → Block) (ip : Dinode) (z : Nat) : Prop :=
  z ≠ 0 ∧ (z = ip.addrs indirectSlot ∨ ∃ bn < MAXFILE, blockAddr disk ip bn = z)

/-- A block the kernel may hold: on the disk, marked in use, and not a block of the free map. -/
structure DataBlock (sb : Superblock) (disk : Nat → Block) (z : Nat) : Prop where
  lt_size : z < sb.size
  used : bitOf sb disk z = true
  not_bitmap : ∀ y < sb.size, z ≠ BBLOCK y sb

/-- The block map of `ip` against the free map. -/
structure AllocInv (sb : Superblock) (disk : Nat → Block) (ip : Dinode) : Prop where
  /-- `sb.size` is a `uint`. -/
  size_lt : sb.size < 2 ^ 32
  /-- The free map's blocks are on the disk and marked in use. -/
  bitmap : ∀ y < sb.size, BBLOCK y sb < sb.size ∧ bitOf sb disk (BBLOCK y sb) = true
  good : ∀ z, ip.Holds disk z → DataBlock sb disk z
  inj : ∀ bn < MAXFILE, ∀ bn' < MAXFILE, blockAddr disk ip bn ≠ 0 →
    blockAddr disk ip bn = blockAddr disk ip bn' → bn = bn'
  ind_ne : ∀ bn < MAXFILE, blockAddr disk ip bn ≠ 0 → blockAddr disk ip bn ≠ ip.addrs indirectSlot
  /-- Block `0` (the boot block) is on the disk and in use, so `balloc` never returns it. -/
  zero_used : 0 < sb.size ∧ bitOf sb disk 0 = true

/-- A block just taken for `ip`: not `0`, marked in use, zeroed, and held by no one. -/
structure Fresh (sb : Superblock) (disk : Nat → Block) (ip : Dinode) (a : Nat) : Prop where
  ne_zero : a ≠ 0
  good : DataBlock sb disk a
  not_holds : ¬ ip.Holds disk a
  zero : disk a = zeroes

/-! ## `uint` entries and chunks of a block -/

@[simp] theorem getUint_zeroes (k : Fin NINDIRECT) : zeroes.getUint k = 0 := by
  simp [Block.getUint, zeroes]

theorem setUint_uintByte (b : Block) (k : Fin NINDIRECT) (v : Nat) (i : Fin 4) :
    b.setUint k v (uintByte k i) = (v / 256 ^ i.val % 256).toUInt8 := by
  have hdiv : (uintByte k i).val / 4 = k.val := by
    simp only [uintByte]
    omega
  have hmod : (uintByte k i).val % 4 = i.val := by
    simp only [uintByte]
    omega
  rw [Block.setUint, if_pos hdiv, hmod]

theorem getUint_setUint_self (b : Block) (k : Fin NINDIRECT) {v : Nat} (hv : v < 2 ^ 32) :
    (b.setUint k v).getUint k = v := by
  simp only [Block.getUint, setUint_uintByte]
  norm_num
  omega

theorem getUint_setUint_of_ne (b : Block) {k k' : Fin NINDIRECT} (h : k' ≠ k) (v : Nat) :
    (b.setUint k v).getUint k' = b.getUint k' := by
  have hne : ∀ i : Fin 4, (uintByte k' i).val / 4 ≠ k.val := by
    intro i
    simp only [uintByte]
    have := Fin.val_ne_of_ne h
    omega
  simp only [Block.getUint, Block.setUint, if_neg (hne _)]

/-! ## What a write to the disk does to the file -/

section Frame

variable {disk : Nat → Block} {ip : Dinode}

theorem blockAddr_of_le {bn : Nat} (h : MAXFILE ≤ bn) : blockAddr disk ip bn = 0 := by
  have h₁ : ¬ bn < NDIRECT := by simp only [MAXFILE] at h; omega
  have h₂ : ¬ bn - NDIRECT < NINDIRECT := by simp only [MAXFILE] at h; omega
  rw [blockAddr, dif_neg h₁, dif_neg h₂]

/-- The map reads the disk only at the indirect block. -/
theorem blockAddr_update {z : Nat} (hz : z ≠ ip.addrs indirectSlot ∨ ip.addrs indirectSlot = 0)
    (blk : Block) (bn : Nat) : blockAddr (Function.update disk z blk) ip bn = blockAddr disk ip bn := by
  unfold blockAddr
  split_ifs with h₁ h₂ h₃
  · rfl
  · rfl
  · rcases hz with hz | hz
    · rw [Function.update_of_ne (Ne.symm hz)]
    · exact absurd hz h₃
  · rfl

theorem blockAddr_update_of_not_holds {z : Nat} (hz : ¬ ip.Holds disk z) (blk : Block) :
    blockAddr (Function.update disk z blk) ip = blockAddr disk ip := by
  funext bn
  apply blockAddr_update
  by_cases hi : ip.addrs indirectSlot = 0
  · exact Or.inr hi
  · exact Or.inl fun h => hz ⟨h ▸ hi, Or.inl h⟩

/-- A file block the map gives a block for is below `MAXFILE`. -/
theorem lt_MAXFILE_of_blockAddr_ne {bn : Nat} (h : blockAddr disk ip bn ≠ 0) : bn < MAXFILE := by
  by_contra hn
  exact h (blockAddr_of_le (Nat.le_of_not_lt hn))

theorem holds_of_blockAddr {bn : Nat} (h : blockAddr disk ip bn ≠ 0) :
    ip.Holds disk (blockAddr disk ip bn) :=
  ⟨h, Or.inr ⟨bn, lt_MAXFILE_of_blockAddr_ne h, rfl⟩⟩

/-- A write to a block the inode does not hold changes none of its bytes. -/
theorem fileByte_update_of_not_holds {z : Nat} (hz : ¬ ip.Holds disk z) (blk : Block) :
    fileByte (Function.update disk z blk) ip = fileByte disk ip := by
  funext p
  unfold fileByte
  rw [blockAddr_update_of_not_holds hz]
  split
  · rfl
  · rename_i h
    have hne : blockAddr disk ip (p / BSIZE) ≠ z := fun he => hz (he ▸ holds_of_blockAddr h)
    rw [Function.update_of_ne hne]

end Frame

/-! ## `balloc` -/

/-- The block `k * BPB + bi` has its bit at `bi` of the free-map block of `k * BPB`. -/
theorem BBLOCK_add (sb : Superblock) (k : Nat) {bi : Nat} (h : bi < BPB) :
    BBLOCK (k * BPB + bi) sb = BBLOCK (k * BPB) sb ∧ (k * BPB + bi) % BPB = bi := by
  simp only [BBLOCK, BPB, BSIZE] at h ⊢
  omega

section Balloc

variable {sb : Superblock}

/-- `balloc` takes a block below `sb.size` whose bit is clear, sets the bit, and zeroes the
block. -/
theorem balloc_spec {d : Dev} {a : Nat} {d' : Dev} (h : balloc sb d = some (a, d')) :
    a < sb.size ∧ bitOf sb d.disk a = false ∧
      d'.disk = Function.update (Function.update d.disk (BBLOCK a sb)
        ((d.disk (BBLOCK a sb)).setBit (a % BPB))) a zeroes := by
  unfold balloc at h
  split at h
  · rename_i b bi hfind
    obtain ⟨k, -, hk⟩ := List.exists_of_findSome?_eq_some hfind
    obtain ⟨bi', hbi', hpair⟩ := Option.map_eq_some_iff.mp hk
    obtain ⟨rfl, rfl⟩ := Prod.mk.inj hpair
    obtain ⟨rfl, rfl⟩ := Prod.mk.inj (Option.some.inj h)
    have hmem := List.mem_of_find?_eq_some hbi'
    have hclear := List.find?_some hbi'
    rw [List.mem_range] at hmem
    obtain ⟨hbb, hmod⟩ := BBLOCK_add sb k (lt_of_lt_of_le hmem (min_le_left _ _))
    refine ⟨by omega, ?_, ?_⟩
    · simpa [bitOf, hbb, hmod] using hclear
    · rw [hbb, hmod]
      rfl
  · cases h

theorem exists_free_of_freeCount_pos {disk : Nat → Block} (h : 0 < freeCount sb disk) :
    ∃ x < sb.size, bitOf sb disk x = false := by
  obtain ⟨x, hx⟩ := Finset.card_pos.mp h
  rw [Finset.mem_filter, Finset.mem_range] at hx
  exact ⟨x, hx.1, hx.2⟩

/-- With a free block, `balloc` does not run out. -/
theorem balloc_isSome {d : Dev} (h : 0 < freeCount sb d.disk) : ∃ a d', balloc sb d = some (a, d') := by
  obtain ⟨x, hx, hbit⟩ := exists_free_of_freeCount_pos h
  have hk : (x / BPB) * BPB + x % BPB = x := Nat.div_add_mod' x BPB
  have hbb := BBLOCK_add sb (x / BPB) (Nat.mod_lt x (by decide))
  rw [hk] at hbb
  -- the scan of the free-map block of `x` finds a clear bit, at `x` or before
  have hfree : (freeBit sb d ((x / BPB) * BPB)).isSome := by
    rw [freeBit, List.find?_isSome]
    refine ⟨x % BPB, List.mem_range.mpr ?_, ?_⟩
    · simp only [BPB, BSIZE] at hk ⊢
      omega
    · simpa [bitOf, ← hbb.1, hbb.2] using hbit
  have hsome : ((List.range ((sb.size + BPB - 1) / BPB)).findSome? fun k =>
      (freeBit sb d (k * BPB)).map fun bi => (k * BPB, bi)).isSome := by
    rw [List.findSome?_isSome_iff]
    refine ⟨x / BPB, List.mem_range.mpr ?_, by simpa using hfree⟩
    simp only [BPB, BSIZE] at hk ⊢
    omega
  unfold balloc
  obtain ⟨⟨b, bi⟩, hbi⟩ := Option.isSome_iff_exists.mp hsome
  rw [hbi]
  exact ⟨_, _, rfl⟩

end Balloc

/-! ## The invariant under `balloc` -/

section Inv

variable {sb : Superblock} {disk disk' : Nat → Block} {ip : Dinode}

theorem blockAddr_of_addrs {ip' : Dinode} (h : ip'.addrs = ip.addrs) (disk : Nat → Block) :
    blockAddr disk ip' = blockAddr disk ip := by
  funext bn
  simp only [blockAddr, h]

/-- The invariant reads only the block addresses of the inode. -/
theorem AllocInv.of_addrs {ip' : Dinode} (hinv : AllocInv sb disk ip) (h : ip'.addrs = ip.addrs) :
    AllocInv sb disk ip' where
  size_lt := hinv.size_lt
  bitmap := hinv.bitmap
  good z hz := hinv.good z (by rwa [Dinode.Holds, blockAddr_of_addrs h, h] at hz)
  inj := by
    rw [blockAddr_of_addrs h]
    exact hinv.inj
  ind_ne := by
    rw [blockAddr_of_addrs h, h]
    exact hinv.ind_ne
  zero_used := hinv.zero_used

/-- An inode with no blocks, as `ialloc` leaves it: the invariant asks only for the free map. -/
theorem allocInv_of_no_blocks (h0 : ∀ i, ip.addrs i = 0) (hsize : sb.size < 2 ^ 32)
    (hbitmap : ∀ y < sb.size, BBLOCK y sb < sb.size ∧ bitOf sb disk (BBLOCK y sb) = true)
    (hzero : 0 < sb.size ∧ bitOf sb disk 0 = true) : AllocInv sb disk ip := by
  have hnone : ∀ bn, blockAddr disk ip bn = 0 := fun bn => by
    unfold blockAddr
    split_ifs with h₁ h₂ h₃
    · exact h0 _
    · rfl
    · exact absurd (h0 _) h₃
    · rfl
  refine ⟨hsize, hbitmap, ?_, ?_, ?_, hzero⟩
  · rintro z ⟨hz, hzi | ⟨bn, -, hbz⟩⟩
    · exact absurd (hzi.trans (h0 _)) hz
    · exact absurd ((hnone bn).symm.trans hbz).symm hz
  · intro bn _ _ _ hne
    exact absurd (hnone bn) hne
  · intro bn _ hne
    exact absurd (hnone bn) hne

theorem holds_congr (hmap : blockAddr disk' ip = blockAddr disk ip) : ip.Holds disk' = ip.Holds disk := by
  funext z
  simp only [Dinode.Holds, hmap]

theorem DataBlock.of_bits {z : Nat} (hz : DataBlock sb disk z)
    (hbits : ∀ x < sb.size, bitOf sb disk x = true → bitOf sb disk' x = true) : DataBlock sb disk' z :=
  ⟨hz.lt_size, hbits z hz.lt_size hz.used, hz.not_bitmap⟩

/-- The invariant reads the disk through the map and the free map: it survives a change that
keeps the map and every bit that was set. -/
theorem AllocInv.of_bits (hinv : AllocInv sb disk ip) (hmap : blockAddr disk' ip = blockAddr disk ip)
    (hbits : ∀ x < sb.size, bitOf sb disk x = true → bitOf sb disk' x = true) : AllocInv sb disk' ip where
  size_lt := hinv.size_lt
  bitmap y hy := ⟨(hinv.bitmap y hy).1, hbits _ (hinv.bitmap y hy).1 (hinv.bitmap y hy).2⟩
  good z hz := (hinv.good z (holds_congr hmap ▸ hz)).of_bits hbits
  inj := by
    rw [hmap]
    exact hinv.inj
  ind_ne := by
    rw [hmap]
    exact hinv.ind_ne
  zero_used := ⟨hinv.zero_used.1, hbits 0 hinv.zero_used.1 hinv.zero_used.2⟩

/-- A block whose bit is clear is held by no one. -/
theorem AllocInv.not_holds_of_clear (hinv : AllocInv sb disk ip) {a : Nat}
    (ha : bitOf sb disk a = false) : ¬ ip.Holds disk a := fun h => by
  have hused := (hinv.good a h).used
  rw [ha] at hused
  cases hused

/-- A block whose bit is clear is no block of the free map. -/
theorem AllocInv.not_bitmap_of_clear (hinv : AllocInv sb disk ip) {a : Nat}
    (ha : bitOf sb disk a = false) : ∀ y < sb.size, a ≠ BBLOCK y sb := fun y hy he => by
  have hused := (hinv.bitmap y hy).2
  rw [← he, ha] at hused
  cases hused

/-- Setting the bit of `a`, a block of no free map, and zeroing `a`: the other bits stay. -/
theorem bitOf_balloc {a x : Nat} (hnb : ∀ y < sb.size, a ≠ BBLOCK y sb) (hx : x < sb.size) :
    bitOf sb (Function.update (Function.update disk (BBLOCK a sb)
        ((disk (BBLOCK a sb)).setBit (a % BPB))) a zeroes) x = (bitOf sb disk x || a == x) := by
  unfold bitOf
  rw [Function.update_of_ne (Ne.symm (hnb x hx))]
  have hbpb : ∀ n, n % BPB < BPB := fun n => Nat.mod_lt n (by decide)
  by_cases hb : BBLOCK x sb = BBLOCK a sb
  · -- one free-map block: the bits differ unless the blocks do
    rw [hb, Function.update_self, bitSet_setBit _ (hbpb a) (hbpb x)]
    have hax : (a % BPB == x % BPB) = (a == x) := by
      rw [Bool.eq_iff_iff, beq_iff_eq, beq_iff_eq]
      constructor
      · intro h
        simp only [BBLOCK, BPB, BSIZE] at hb h
        omega
      · intro h
        rw [h]
    rw [hax]
  · rw [Function.update_of_ne hb]
    have hax : a ≠ x := fun h => hb (h ▸ rfl)
    simp [hax]

theorem freeCount_balloc {a : Nat} (ha : a < sb.size) (hclear : bitOf sb disk a = false)
    (hnb : ∀ y < sb.size, a ≠ BBLOCK y sb) :
    freeCount sb (Function.update (Function.update disk (BBLOCK a sb)
        ((disk (BBLOCK a sb)).setBit (a % BPB))) a zeroes) + 1 = freeCount sb disk := by
  have hmem : a ∈ (Finset.range sb.size).filter fun x => bitOf sb disk x = false := by
    simp [ha, hclear]
  have hset : ((Finset.range sb.size).filter fun x => bitOf sb (Function.update
      (Function.update disk (BBLOCK a sb) ((disk (BBLOCK a sb)).setBit (a % BPB))) a zeroes) x = false) =
      ((Finset.range sb.size).filter fun x => bitOf sb disk x = false).erase a := by
    ext x
    simp only [Finset.mem_filter, Finset.mem_range, Finset.mem_erase]
    constructor
    · rintro ⟨hx, hb⟩
      rw [bitOf_balloc hnb hx, Bool.or_eq_false_iff, beq_eq_false_iff_ne] at hb
      exact ⟨Ne.symm hb.2, hx, hb.1⟩
    · rintro ⟨hne, hx, hb⟩
      refine ⟨hx, ?_⟩
      rw [bitOf_balloc hnb hx, hb, Bool.false_or, beq_eq_false_iff_ne]
      exact Ne.symm hne
  unfold freeCount
  rw [hset, Finset.card_erase_of_mem hmem]
  have hpos := Finset.card_pos.mpr ⟨a, hmem⟩
  omega

/-- `balloc` under the invariant: it takes a block held by no one and in no free map, which it
marks and zeroes; the map and the bytes of `ip` stay, and one block fewer is free. -/
theorem AllocInv.balloc {d d' : Dev} {a : Nat} (hinv : AllocInv sb d.disk ip)
    (h : balloc sb d = some (a, d')) :
    AllocInv sb d'.disk ip ∧ Fresh sb d'.disk ip a ∧ blockAddr d'.disk ip = blockAddr d.disk ip ∧
      fileByte d'.disk ip = fileByte d.disk ip ∧ freeCount sb d'.disk + 1 = freeCount sb d.disk := by
  obtain ⟨ha, hclear, hdisk⟩ := balloc_spec h
  have hnh : ¬ ip.Holds d.disk a := hinv.not_holds_of_clear hclear
  have hnb : ∀ y < sb.size, a ≠ BBLOCK y sb := hinv.not_bitmap_of_clear hclear
  have hbb : ¬ ip.Holds d.disk (BBLOCK a sb) := fun h => (hinv.good _ h).not_bitmap a ha rfl
  -- the map is as it was after each of the two writes
  have hmap₁ := blockAddr_update_of_not_holds hbb ((d.disk (BBLOCK a sb)).setBit (a % BPB))
  have hnh₁ : ¬ ip.Holds (Function.update d.disk (BBLOCK a sb)
      ((d.disk (BBLOCK a sb)).setBit (a % BPB))) a := by
    rw [holds_congr hmap₁]
    exact hnh
  have hmap : blockAddr d'.disk ip = blockAddr d.disk ip := by
    rw [hdisk, blockAddr_update_of_not_holds hnh₁, hmap₁]
  have hbits : ∀ x < sb.size, bitOf sb d'.disk x = (bitOf sb d.disk x || a == x) := fun x hx => by
    rw [hdisk]
    exact bitOf_balloc hnb hx
  refine ⟨hinv.of_bits hmap fun x hx h => by rw [hbits x hx, h, Bool.true_or], ⟨?_, ?_, ?_, ?_⟩,
    hmap, ?_, ?_⟩
  · -- its bit was clear, and block 0's is set
    rintro rfl
    rw [hinv.zero_used.2] at hclear
    cases hclear
  · exact ⟨ha, by rw [hbits a ha, beq_self_eq_true, Bool.or_true], hnb⟩
  · rw [holds_congr hmap]
    exact hnh
  · rw [hdisk, Function.update_self]
  · rw [hdisk, fileByte_update_of_not_holds hnh₁, fileByte_update_of_not_holds hbb]
  · rw [hdisk]
    exact freeCount_balloc ha hclear hnb

end Inv

/-! ## The map gaining a block -/

section Fill

variable {sb : Superblock} {disk disk' : Nat → Block} {ip : Dinode}

theorem directSlot_ne_indirectSlot {bn : Nat} (h : bn < NDIRECT) : directSlot bn h ≠ indirectSlot := by
  intro he
  have hv := congrArg Fin.val he
  simp only [directSlot, indirectSlot, Fin.val_last] at hv
  omega

/-- `ip->addrs[bn] = a` for a direct block. -/
theorem blockAddr_setAddr_direct {bn : Nat} (h : bn < NDIRECT) (a bn' : Nat) :
    blockAddr disk (ip.setAddr (directSlot bn h) a) bn' =
      if bn' = bn then a else blockAddr disk ip bn' := by
  by_cases h' : bn' < NDIRECT
  · simp only [blockAddr, dif_pos h', Dinode.setAddr]
    by_cases hb : bn' = bn
    · subst hb
      simp
    · have hne : directSlot bn' h' ≠ directSlot bn h := fun he => hb (congrArg Fin.val he)
      rw [Function.update_of_ne hne, if_neg hb]
  · have hb : bn' ≠ bn := fun he => h' (he ▸ h)
    simp only [blockAddr, dif_neg h', Dinode.setAddr, if_neg hb,
      Function.update_of_ne (directSlot_ne_indirectSlot h).symm]

/-- `ip->addrs[NDIRECT] = a` for a missing indirect block, `a` zeroed: its entries are all `0`,
so the map is as it was. -/
theorem blockAddr_setAddr_indirect {a : Nat} (h0 : ip.addrs indirectSlot = 0)
    (hz : disk a = zeroes) : blockAddr disk (ip.setAddr indirectSlot a) = blockAddr disk ip := by
  funext bn
  by_cases h : bn < NDIRECT
  · have hne : directSlot bn h ≠ indirectSlot := directSlot_ne_indirectSlot h
    simp only [blockAddr, dif_pos h, Dinode.setAddr, Function.update_of_ne hne]
  · simp only [blockAddr, dif_neg h, Dinode.setAddr, Function.update_self, h0, hz, getUint_zeroes]
    split_ifs <;> rfl

/-- `a[bn - NDIRECT] = v` in the indirect block. -/
theorem blockAddr_setUint {k : Fin NINDIRECT} {v : Nat} (hind : ip.addrs indirectSlot ≠ 0)
    (hv : v < 2 ^ 32) (bn : Nat) :
    blockAddr (Function.update disk (ip.addrs indirectSlot)
        ((disk (ip.addrs indirectSlot)).setUint k v)) ip bn =
      if bn = NDIRECT + k then v else blockAddr disk ip bn := by
  by_cases h : bn < NDIRECT
  · have hb : bn ≠ NDIRECT + k := by omega
    simp only [blockAddr, dif_pos h, if_neg hb]
  · by_cases h' : bn - NDIRECT < NINDIRECT
    · simp only [blockAddr, dif_neg h, dif_pos h', if_neg hind, Function.update_self]
      by_cases hb : bn = NDIRECT + k
      · have hk : (⟨bn - NDIRECT, h'⟩ : Fin NINDIRECT) = k := Fin.ext (by simp only; omega)
        rw [hk, getUint_setUint_self _ _ hv, if_pos hb]
      · have hk : (⟨bn - NDIRECT, h'⟩ : Fin NINDIRECT) ≠ k := fun he => hb (by
          have := congrArg Fin.val he
          simp only at this
          omega)
        rw [getUint_setUint_of_ne _ hk, if_neg hb]
    · have hb : bn ≠ NDIRECT + k := by
        have := k.isLt
        omega
      simp only [blockAddr, dif_neg h, dif_neg h', if_neg hb]

/-- The map gaining a zeroed block at a hole, its other blocks unchanged: no byte of the file
changes. -/
theorem fileByte_fill_hole {ip' : Dinode} {a bn : Nat} (hzero : disk' a = zeroes)
    (hhole : blockAddr disk ip bn = 0) (hnew : blockAddr disk' ip' bn = a)
    (hrest : ∀ bn', bn' ≠ bn → blockAddr disk' ip' bn' = blockAddr disk ip bn')
    (hdisk : ∀ bn', bn' ≠ bn → blockAddr disk ip bn' ≠ 0 →
      disk' (blockAddr disk ip bn') = disk (blockAddr disk ip bn')) :
    fileByte disk' ip' = fileByte disk ip := by
  funext p
  unfold fileByte
  by_cases hb : p / BSIZE = bn
  · rw [hb, hnew, hhole, hzero]
    simp [zeroes]
  · rw [hrest _ hb]
    split
    · rfl
    · rename_i h
      rw [hdisk _ hb h]

/-- The map gaining the fresh block `a` at `bn`, the rest of the map and every bit as they were:
the invariant holds of the new map. -/
theorem AllocInv.fill_hole {ip' : Dinode} {a bn : Nat} (hinv : AllocInv sb disk ip)
    (hfresh : Fresh sb disk ip a)
    (hbits : ∀ x < sb.size, bitOf sb disk' x = bitOf sb disk x)
    (hind : ip'.addrs indirectSlot = ip.addrs indirectSlot)
    (hnew : blockAddr disk' ip' bn = a)
    (hrest : ∀ bn', bn' ≠ bn → blockAddr disk' ip' bn' = blockAddr disk ip bn') :
    AllocInv sb disk' ip' where
  size_lt := hinv.size_lt
  bitmap y hy := by
    rw [hbits _ (hinv.bitmap y hy).1]
    exact hinv.bitmap y hy
  good z hz := by
    have hbits' : ∀ x < sb.size, bitOf sb disk x = true → bitOf sb disk' x = true :=
      fun x hx h => by rw [hbits x hx, h]
    obtain ⟨hz0, hzi | ⟨bn', hbn', hbz⟩⟩ := hz
    · exact (hinv.good z ⟨hz0, Or.inl (hind ▸ hzi)⟩).of_bits hbits'
    · by_cases hb : bn' = bn
      · rw [hb, hnew] at hbz
        exact hbz ▸ hfresh.good.of_bits hbits'
      · rw [hrest bn' hb] at hbz
        exact (hinv.good z ⟨hz0, Or.inr ⟨bn', hbn', hbz⟩⟩).of_bits hbits'
  inj b₁ h₁ b₂ h₂ hne heq := by
    -- the new block is not one the map held
    have hold : ∀ b < MAXFILE, blockAddr disk ip b ≠ 0 → blockAddr disk ip b ≠ a :=
      fun b hb hne he => hfresh.not_holds (he ▸ ⟨hne, Or.inr ⟨b, hb, rfl⟩⟩)
    by_cases hb₁ : b₁ = bn <;> by_cases hb₂ : b₂ = bn
    · rw [hb₁, hb₂]
    · rw [hb₁, hnew, hrest b₂ hb₂] at heq
      exact absurd heq.symm (hold b₂ h₂ (heq ▸ hfresh.ne_zero))
    · rw [hb₂, hnew, hrest b₁ hb₁] at heq
      rw [hrest b₁ hb₁] at hne
      exact absurd heq (hold b₁ h₁ hne)
    · rw [hrest b₁ hb₁, hrest b₂ hb₂] at heq
      rw [hrest b₁ hb₁] at hne
      exact hinv.inj b₁ h₁ b₂ h₂ hne heq
  ind_ne b hb hne := by
    rw [hind]
    by_cases hb' : b = bn
    · -- the indirect block, if any, is held, and `a` is not
      rw [hb', hnew]
      exact fun he => hfresh.not_holds ⟨hfresh.ne_zero, Or.inl he⟩
    · rw [hrest b hb'] at hne ⊢
      exact hinv.ind_ne b hb hne
  zero_used := ⟨hinv.zero_used.1, by rw [hbits 0 hinv.zero_used.1]; exact hinv.zero_used.2⟩

/-- The fresh block `a` becoming the indirect block: the invariant holds of the new map. -/
theorem AllocInv.setIndirect {a : Nat} (hinv : AllocInv sb disk ip) (hfresh : Fresh sb disk ip a)
    (h0 : ip.addrs indirectSlot = 0) : AllocInv sb disk (ip.setAddr indirectSlot a) where
  size_lt := hinv.size_lt
  bitmap := hinv.bitmap
  good z hz := by
    obtain ⟨hz0, hzi | ⟨bn, hbn, hbz⟩⟩ := hz
    · simp only [Dinode.setAddr, Function.update_self] at hzi
      exact hzi ▸ hfresh.good
    · rw [blockAddr_setAddr_indirect h0 hfresh.zero] at hbz
      exact hinv.good z ⟨hz0, Or.inr ⟨bn, hbn, hbz⟩⟩
  inj := by
    rw [blockAddr_setAddr_indirect h0 hfresh.zero]
    exact hinv.inj
  ind_ne b hb hne := by
    rw [blockAddr_setAddr_indirect h0 hfresh.zero] at hne ⊢
    simp only [Dinode.setAddr, Function.update_self]
    exact fun he => hfresh.not_holds (he ▸ holds_of_blockAddr hne)
  zero_used := hinv.zero_used

theorem bitOf_update_of_good {z : Nat} (hz : DataBlock sb disk z) (blk : Block) {x : Nat}
    (hx : x < sb.size) : bitOf sb (Function.update disk z blk) x = bitOf sb disk x := by
  unfold bitOf
  rw [Function.update_of_ne (Ne.symm (hz.not_bitmap x hx))]

end Fill

/-! ## `bmap` -/

/-- The blocks `bmap` of `bn` allocates: the block if it is missing, and the indirect block if `bn`
is past the direct blocks and that is missing. -/
def bmapCost (disk : Nat → Block) (ip : Dinode) (bn : Nat) : Nat :=
  (if blockAddr disk ip bn = 0 then 1 else 0) +
    if NDIRECT ≤ bn ∧ ip.addrs indirectSlot = 0 then 1 else 0

/-- A step that keeps the invariant, the map and the bytes of the file, taking `n` blocks from
the free map. -/
structure KeepsMap (sb : Superblock) (n : Nat) (d : Dev) (ip : Dinode) (d' : Dev) (ip' : Dinode) :
    Prop where
  inv : AllocInv sb d'.disk ip'
  map : blockAddr d'.disk ip' = blockAddr d.disk ip
  bytes : fileByte d'.disk ip' = fileByte d.disk ip
  free : freeCount sb d'.disk + n = freeCount sb d.disk
  size : ip'.size = ip.size
  type : ip'.type = ip.type

/-- What `bmap` of `bn` leaves: the map holds `bn`, its other entries and the bytes of the file
are as they were, and `bmapCost` blocks were taken from the free map. -/
structure Mapped (sb : Superblock) (bn : Nat) (d : Dev) (ip : Dinode) (d' : Dev) (ip' : Dinode) :
    Prop where
  inv : AllocInv sb d'.disk ip'
  addr_ne : blockAddr d'.disk ip' bn ≠ 0
  addr_of_ne : ∀ bn', bn' ≠ bn → blockAddr d'.disk ip' bn' = blockAddr d.disk ip bn'
  bytes : fileByte d'.disk ip' = fileByte d.disk ip
  ind_of_lt : bn < NDIRECT → ip'.addrs indirectSlot = ip.addrs indirectSlot
  ind_of_ge : NDIRECT ≤ bn → ip'.addrs indirectSlot ≠ 0
  free : freeCount sb d'.disk + bmapCost d.disk ip bn = freeCount sb d.disk
  size : ip'.size = ip.size
  type : ip'.type = ip.type

section Bmap

variable {sb : Superblock} {d : Dev} {ip : Dinode}

theorem KeepsMap.refl (hinv : AllocInv sb d.disk ip) : KeepsMap sb 0 d ip d ip :=
  ⟨hinv, rfl, rfl, rfl, rfl, rfl⟩

theorem freeCount_update_of_good {disk : Nat → Block} {z : Nat} (hz : DataBlock sb disk z) (blk : Block) :
    freeCount sb (Function.update disk z blk) = freeCount sb disk := by
  unfold freeCount
  congr 1
  apply Finset.filter_congr
  intro x hx
  rw [bitOf_update_of_good hz blk (Finset.mem_range.mp hx)]

/-- The indirect block, allocated if it is missing: the first step of `bmap` past the direct
blocks. -/
theorem slotAddr_indirect (hinv : AllocInv sb d.disk ip)
    (hfree : (if ip.addrs indirectSlot = 0 then 1 else 0) ≤ freeCount sb d.disk) :
    ∃ ind ip₁ d₁, slotAddr sb ip indirectSlot d = some (ind, ip₁, d₁) ∧ ind ≠ 0 ∧
      ip₁.addrs indirectSlot = ind ∧
      KeepsMap sb (if ip.addrs indirectSlot = 0 then 1 else 0) d ip d₁ ip₁ := by
  by_cases h0 : ip.addrs indirectSlot = 0
  · rw [if_pos h0] at hfree ⊢
    obtain ⟨a, d₁, hba⟩ := balloc_isSome hfree
    obtain ⟨hinv₁, hfresh, hmap, hbytes, hfc⟩ := hinv.balloc hba
    have hmap₁ : blockAddr d₁.disk (ip.setAddr indirectSlot a) = blockAddr d₁.disk ip :=
      blockAddr_setAddr_indirect h0 hfresh.zero
    refine ⟨a, ip.setAddr indirectSlot a, d₁, ?_, hfresh.ne_zero, ?_, ?_⟩
    · simp only [slotAddr, if_pos h0, hba, Option.map_some]
    · simp [Dinode.setAddr]
    · refine ⟨hinv₁.setIndirect hfresh h0, by rw [hmap₁, hmap], ?_, hfc, rfl, rfl⟩
      rw [← hbytes]
      unfold fileByte
      rw [hmap₁]
  · rw [if_neg h0]
    exact ⟨ip.addrs indirectSlot, ip, d, by simp only [slotAddr, if_neg h0], h0, rfl, KeepsMap.refl hinv⟩

theorem bmap_spec_direct {bn : Nat} (hinv : AllocInv sb d.disk ip) (h : bn < NDIRECT)
    (hfree : bmapCost d.disk ip bn ≤ freeCount sb d.disk) :
    ∃ ip' d', bmap sb ip bn d = some (blockAddr d'.disk ip' bn, ip', d') ∧ Mapped sb bn d ip d' ip' := by
  have hslot : ∀ (disk : Nat → Block) (ip : Dinode),
      blockAddr disk ip bn = ip.addrs (directSlot bn h) := fun _ _ => by simp only [blockAddr, dif_pos h]
  have hcost : bmapCost d.disk ip bn = if ip.addrs (directSlot bn h) = 0 then 1 else 0 := by
    simp only [bmapCost, hslot, show ¬ NDIRECT ≤ bn by omega, false_and, if_false, Nat.add_zero]
  by_cases h0 : ip.addrs (directSlot bn h) = 0
  · -- a hole: `balloc` fills it
    rw [hcost, if_pos h0] at hfree
    obtain ⟨a, d₁, hba⟩ := balloc_isSome hfree
    obtain ⟨hinv₁, hfresh, hmap, hbytes, hfc⟩ := hinv.balloc hba
    have haddr : ∀ bn', blockAddr d₁.disk (ip.setAddr (directSlot bn h) a) bn' =
        if bn' = bn then a else blockAddr d₁.disk ip bn' := blockAddr_setAddr_direct h a
    have hnew : blockAddr d₁.disk (ip.setAddr (directSlot bn h) a) bn = a := by rw [haddr, if_pos rfl]
    have hrest : ∀ bn', bn' ≠ bn →
        blockAddr d₁.disk (ip.setAddr (directSlot bn h) a) bn' = blockAddr d₁.disk ip bn' :=
      fun bn' hb => by rw [haddr, if_neg hb]
    have hind : (ip.setAddr (directSlot bn h) a).addrs indirectSlot = ip.addrs indirectSlot := by
      simp only [Dinode.setAddr, Function.update_of_ne (directSlot_ne_indirectSlot h).symm]
    refine ⟨ip.setAddr (directSlot bn h) a, d₁, ?_, ?_⟩
    · simp only [bmap, dif_pos h, slotAddr, if_pos h0, hba, Option.map_some, hnew]
    · refine ⟨hinv₁.fill_hole hfresh (fun _ _ => rfl) hind hnew hrest, by rw [hnew]; exact hfresh.ne_zero,
        fun bn' hb => by rw [hrest bn' hb, hmap], ?_, fun _ => hind, fun hge => absurd h (by omega),
        by rw [hcost, if_pos h0]; exact hfc, rfl, rfl⟩
      rw [← hbytes]
      exact fileByte_fill_hole hfresh.zero (by rw [hmap, hslot, h0]) hnew hrest (fun _ _ _ => rfl)
  · -- the block is there
    refine ⟨ip, d, ?_, ⟨hinv, by rw [hslot]; exact h0, fun _ _ => rfl, rfl, fun _ => rfl,
      fun hge => absurd h (by omega), by rw [hcost, if_neg h0]; rfl, rfl, rfl⟩⟩
    simp only [bmap, dif_pos h, slotAddr, if_neg h0, hslot]

theorem bmap_spec_indirect {bn : Nat} (hinv : AllocInv sb d.disk ip) (h : NDIRECT ≤ bn)
    (h' : bn < MAXFILE) (hfree : bmapCost d.disk ip bn ≤ freeCount sb d.disk) :
    ∃ ip' d', bmap sb ip bn d = some (blockAddr d'.disk ip' bn, ip', d') ∧ Mapped sb bn d ip d' ip' := by
  have hlt : ¬ bn < NDIRECT := by omega
  have hk : bn - NDIRECT < NINDIRECT := by simp only [MAXFILE] at h'; omega
  have hcost : bmapCost d.disk ip bn = (if blockAddr d.disk ip bn = 0 then 1 else 0) +
      if ip.addrs indirectSlot = 0 then 1 else 0 := by
    simp only [bmapCost, h, true_and]
  obtain ⟨ind, ip₁, d₁, hsa, hind0, hind, hk₁⟩ :=
    slotAddr_indirect hinv (by rw [hcost] at hfree; omega)
  -- the entry of `bn` in the indirect block is what the map gives
  have hentry : (d₁.disk ind).getUint ⟨bn - NDIRECT, hk⟩ = blockAddr d.disk ip bn := by
    rw [← hk₁.map, ← hind]
    simp only [blockAddr, dif_neg hlt, dif_pos hk, if_neg (hind ▸ hind0)]
  have hbmap : bmap sb ip bn d =
      if (d₁.disk ind).getUint ⟨bn - NDIRECT, hk⟩ = 0 then
        (balloc sb d₁).bind fun p =>
          some (p.1, ip₁, p.2.write ind ((p.2.disk ind).setUint ⟨bn - NDIRECT, hk⟩ p.1))
      else some ((d₁.disk ind).getUint ⟨bn - NDIRECT, hk⟩, ip₁, d₁) := by
    simp only [bmap, dif_neg hlt, dif_pos hk, hsa]
    rfl
  by_cases he : blockAddr d.disk ip bn = 0
  · -- a hole: `balloc` fills it and the entry is written
    rw [hcost, if_pos he] at hfree
    rw [← hk₁.free] at hfree
    obtain ⟨a, d₂, hba⟩ : ∃ a d₂, balloc sb d₁ = some (a, d₂) := balloc_isSome (by omega)
    obtain ⟨hinv₂, hfresh, hmap, hbytes, hfc⟩ := hk₁.inv.balloc hba
    have hgood : DataBlock sb d₂.disk ind := hinv₂.good ind ⟨hind0, Or.inl hind.symm⟩
    have hne : a ≠ ind := fun he => hfresh.not_holds (he ▸ ⟨hind0, Or.inl hind.symm⟩)
    have haddr : ∀ bn', blockAddr (Function.update d₂.disk (ip₁.addrs indirectSlot)
        ((d₂.disk (ip₁.addrs indirectSlot)).setUint ⟨bn - NDIRECT, hk⟩ a)) ip₁ bn' =
        if bn' = NDIRECT + (bn - NDIRECT) then a else blockAddr d₂.disk ip₁ bn' :=
      blockAddr_setUint (hind ▸ hind0) (lt_of_lt_of_le hfresh.good.lt_size (le_of_lt hinv.size_lt))
    rw [hind] at haddr
    have hbn : bn = NDIRECT + (⟨bn - NDIRECT, hk⟩ : Fin NINDIRECT).val := by simp only; omega
    have hnew : blockAddr (d₂.write ind ((d₂.disk ind).setUint ⟨bn - NDIRECT, hk⟩ a)).disk ip₁ bn = a := by
      rw [Dev.write_disk, haddr, if_pos hbn]
    have hrest : ∀ bn', bn' ≠ bn →
        blockAddr (d₂.write ind ((d₂.disk ind).setUint ⟨bn - NDIRECT, hk⟩ a)).disk ip₁ bn' =
          blockAddr d₂.disk ip₁ bn' := fun bn' hb => by
      rw [Dev.write_disk, haddr, if_neg (fun he => hb (by rw [he, ← hbn]))]
    refine ⟨ip₁, d₂.write ind ((d₂.disk ind).setUint ⟨bn - NDIRECT, hk⟩ a), ?_, ?_⟩
    · rw [hbmap, hentry, if_pos he, hba, Option.bind_some, hnew]
    · have hold : ∀ bn', blockAddr d₂.disk ip₁ bn' = blockAddr d.disk ip bn' := fun bn' => by
        rw [hmap, hk₁.map]
      refine ⟨hinv₂.fill_hole hfresh (fun x hx => bitOf_update_of_good hgood _ hx) rfl hnew hrest,
        by rw [hnew]; exact hfresh.ne_zero, fun bn' hb => by rw [hrest bn' hb, hold], ?_, fun hb => absurd hb hlt,
        fun _ => hind ▸ hind0, ?_, hk₁.size, hk₁.type⟩
      · rw [← hk₁.bytes, ← hbytes]
        apply fileByte_fill_hole (by rw [Dev.write_disk, Function.update_of_ne hne, hfresh.zero])
          (by rw [hold, he]) hnew hrest
        intro bn' _ hb
        rw [Dev.write_disk,
          Function.update_of_ne (hind ▸ hinv₂.ind_ne bn' (lt_MAXFILE_of_blockAddr_ne hb) hb)]
      · rw [hcost, if_pos he, Dev.write_disk, freeCount_update_of_good hgood, ← hk₁.free]
        omega
  · -- the block is there
    refine ⟨ip₁, d₁, ?_, ⟨hk₁.inv, by rw [hk₁.map]; exact he, fun bn' _ => by rw [hk₁.map],
      hk₁.bytes, fun hb => absurd hb hlt, fun _ => hind ▸ hind0, ?_, hk₁.size, hk₁.type⟩⟩
    · rw [hbmap, hentry, if_neg he, hk₁.map]
    · rw [hcost, if_neg he, Nat.zero_add]
      exact hk₁.free

/-- `bmap` of a file block below `MAXFILE`, with `bmapCost` blocks free, returns the block the map
then gives. -/
theorem bmap_spec {bn : Nat} (hinv : AllocInv sb d.disk ip) (hbn : bn < MAXFILE)
    (hfree : bmapCost d.disk ip bn ≤ freeCount sb d.disk) :
    ∃ ip' d', bmap sb ip bn d = some (blockAddr d'.disk ip' bn, ip', d') ∧ Mapped sb bn d ip d' ip' := by
  by_cases h : bn < NDIRECT
  · exact bmap_spec_direct hinv h hfree
  · exact bmap_spec_indirect hinv (Nat.le_of_not_lt h) hbn hfree

end Bmap

/-! ## A chunk of one block -/

section Chunk

variable {sb : Superblock} {disk : Nat → Block} {ip : Dinode}

theorem div_eq_iff_block {bn p : Nat} : p / BSIZE = bn ↔ bn * BSIZE ≤ p ∧ p < bn * BSIZE + BSIZE := by
  simp only [BSIZE]
  omega

/-- The bytes `memmove` copies out of the block of file block `bn` from byte `s` are the file's. -/
theorem chunk_eq_fileBytes {bn s m : Nat} (ha : blockAddr disk ip bn ≠ 0) (hs : s + m ≤ BSIZE) :
    ((List.ofFn (disk (blockAddr disk ip bn))).drop s).take m = fileBytes disk ip (bn * BSIZE + s) m := by
  apply List.ext_getElem
  · simp only [List.length_take, List.length_drop, List.length_ofFn, fileBytes, List.length_map,
      List.length_range]
    omega
  · intro i h₁ h₂
    simp only [List.length_map, List.length_range, fileBytes] at h₂
    have hdiv : (bn * BSIZE + s + i) / BSIZE = bn := by
      simp only [BSIZE] at hs ⊢
      omega
    have hmod : (bn * BSIZE + s + i) % BSIZE = s + i := by
      simp only [BSIZE] at hs ⊢
      omega
    simp only [List.getElem_take, List.getElem_drop, List.getElem_ofFn, fileBytes, List.getElem_map,
      List.getElem_range, fileByte, hdiv, if_neg ha]
    congr 1
    exact Fin.ext (by simp only [hmod])

/-- A `memmove` of `chunk` into the block of file block `bn` from byte `s`, within the block: the
file's bytes in that range become the chunk's, the others stay. -/
theorem fileByte_copyIn (hinv : AllocInv sb disk ip) {bn s : Nat} {chunk : List UInt8}
    (ha : blockAddr disk ip bn ≠ 0) (hs : s + chunk.length ≤ BSIZE) :
    fileByte (Function.update disk (blockAddr disk ip bn)
        ((disk (blockAddr disk ip bn)).copyIn s chunk)) ip =
      patch (fileByte disk ip) (bn * BSIZE + s) chunk := by
  have hbn : bn < MAXFILE := lt_MAXFILE_of_blockAddr_ne ha
  have hmap : ∀ bn', blockAddr (Function.update disk (blockAddr disk ip bn)
      ((disk (blockAddr disk ip bn)).copyIn s chunk)) ip bn' = blockAddr disk ip bn' :=
    blockAddr_update (Or.inl (hinv.ind_ne bn hbn ha)) _
  funext p
  unfold fileByte patch
  dsimp only
  rw [hmap]
  by_cases hb : p / BSIZE = bn
  · -- the written block: the chunk, where `p` falls in it
    have hp : p = bn * BSIZE + p % BSIZE := by
      rw [← hb]
      exact (Nat.div_add_mod' p BSIZE).symm
    have hlt : p % BSIZE < BSIZE := Nat.mod_lt _ (by decide)
    rw [hb, if_neg ha, if_neg ha, Function.update_self, Block.copyIn]
    simp only
    by_cases hin : s ≤ p % BSIZE ∧ p % BSIZE < s + chunk.length
    · rw [if_pos hin, if_pos (by omega)]
      congr 1
      omega
    · rw [if_neg hin, if_neg (by omega)]
  · -- another block: not the written one, and `p` is outside the chunk
    have hout : ¬ (bn * BSIZE + s ≤ p ∧ p < bn * BSIZE + s + chunk.length) := fun h =>
      hb (div_eq_iff_block.mpr ⟨by omega, by omega⟩)
    rw [if_neg hout]
    split
    · rfl
    · rename_i h0
      have hne : blockAddr disk ip (p / BSIZE) ≠ blockAddr disk ip bn :=
        fun he => hb (hinv.inj _ (lt_MAXFILE_of_blockAddr_ne h0) _ hbn h0 he)
      rw [Function.update_of_ne hne]

/-- A write to a block the inode holds keeps the invariant, the map and the free map. -/
theorem AllocInv.update_held (hinv : AllocInv sb disk ip) {z : Nat} (hz : ip.Holds disk z)
    (hind : z ≠ ip.addrs indirectSlot) (blk : Block) :
    AllocInv sb (Function.update disk z blk) ip ∧
      blockAddr (Function.update disk z blk) ip = blockAddr disk ip ∧
      freeCount sb (Function.update disk z blk) = freeCount sb disk := by
  have hmap : blockAddr (Function.update disk z blk) ip = blockAddr disk ip :=
    funext (blockAddr_update (Or.inl hind) blk)
  have hgood := hinv.good z hz
  exact ⟨hinv.of_bits hmap fun x hx h => by rw [bitOf_update_of_good hgood blk hx, h], hmap,
    freeCount_update_of_good hgood blk⟩

end Chunk

/-! ## The blocks a loop crosses -/

/-- The file blocks that `n` bytes from `off` lie in. -/
def spanBlocks (off n : Nat) : List Nat :=
  if n = 0 then [] else List.range' (off / BSIZE) ((off + n - 1) / BSIZE + 1 - off / BSIZE)

/-- The blocks `bmap` allocates over the file blocks `bns`, each visited once: the holes, and the
indirect block if it is missing and one of them is past the direct blocks. -/
def allocNeeds (disk : Nat → Block) (ip : Dinode) (bns : List Nat) : Nat :=
  (bns.filter fun bn => blockAddr disk ip bn = 0).length +
    if ip.addrs indirectSlot = 0 ∧ ∃ bn ∈ bns, NDIRECT ≤ bn then 1 else 0

section Span

variable {sb : Superblock} {disk disk' : Nat → Block} {ip ip' : Dinode}

theorem mem_spanBlocks {off n x : Nat} :
    x ∈ spanBlocks off n ↔ n ≠ 0 ∧ off / BSIZE ≤ x ∧ x ≤ (off + n - 1) / BSIZE := by
  unfold spanBlocks
  split
  · simp [*]
  · rw [List.mem_range'_1]
    omega

/-- A loop's first pass takes the rest of the block of `off`, or all `n` bytes if they fit; the
next pass starts in the next block. -/
theorem spanBlocks_cons {off n : Nat} (h : 0 < n) :
    spanBlocks off n = off / BSIZE ::
      spanBlocks (off + min n (BSIZE - off % BSIZE)) (n - min n (BSIZE - off % BSIZE)) := by
  have hs : ∀ o k, spanBlocks o k = if k = 0 then [] else
      List.range' (o / BSIZE) ((o + k - 1) / BSIZE + 1 - o / BSIZE) := fun _ _ => rfl
  rw [hs, if_neg (by omega), hs]
  by_cases h0 : n - min n (BSIZE - off % BSIZE) = 0
  · -- the bytes fit in the block of `off`
    have hone : (off + n - 1) / BSIZE + 1 - off / BSIZE = 1 := by
      simp only [BSIZE] at h0 ⊢
      omega
    rw [if_pos h0, hone]
    rfl
  · have hk : (off + n - 1) / BSIZE + 1 - off / BSIZE =
        ((off + min n (BSIZE - off % BSIZE) + (n - min n (BSIZE - off % BSIZE)) - 1) / BSIZE + 1 -
          (off + min n (BSIZE - off % BSIZE)) / BSIZE) + 1 := by
      simp only [BSIZE] at h0 ⊢
      omega
    have hnext : (off + min n (BSIZE - off % BSIZE)) / BSIZE = off / BSIZE + 1 := by
      simp only [BSIZE] at h0 ⊢
      omega
    rw [if_neg h0, hk, List.range'_succ, hnext]

theorem bmapCost_le_allocNeeds (bn : Nat) (bns : List Nat) :
    bmapCost disk ip bn ≤ allocNeeds disk ip (bn :: bns) := by
  unfold bmapCost allocNeeds
  -- a hole at `bn` is one the filter counts
  have hhole : (if blockAddr disk ip bn = 0 then 1 else 0) ≤
      ((bn :: bns).filter fun x => blockAddr disk ip x = 0).length := by
    rw [List.filter_cons]
    split <;> simp_all
  -- a missing indirect block for `bn` is missing for `bn :: bns`
  have hind : (if NDIRECT ≤ bn ∧ ip.addrs indirectSlot = 0 then 1 else 0) ≤
      if ip.addrs indirectSlot = 0 ∧ ∃ x ∈ bn :: bns, NDIRECT ≤ x then 1 else 0 := by
    split
    · rename_i h
      rw [if_pos ⟨h.2, bn, List.mem_cons_self, h.1⟩]
    · exact Nat.zero_le _
  exact Nat.add_le_add hhole hind

/-- What `bmap` of `bn` allocates is taken from what the blocks `bn :: bns` need, the rest needing
the others. -/
theorem allocNeeds_cons {sb : Superblock} {d d' : Dev} {bn : Nat} {bns : List Nat}
    (hm : Mapped sb bn d ip d' ip') (hnot : bn ∉ bns) :
    allocNeeds d.disk ip (bn :: bns) = bmapCost d.disk ip bn + allocNeeds d'.disk ip' bns := by
  have hfilter : (bns.filter fun x => blockAddr d'.disk ip' x = 0) =
      bns.filter fun x => blockAddr d.disk ip x = 0 := by
    apply List.filter_congr
    intro x hx
    rw [hm.addr_of_ne x (fun he => hnot (he ▸ hx))]
  have hlen : ((bn :: bns).filter fun x => blockAddr d.disk ip x = 0).length =
      (if blockAddr d.disk ip bn = 0 then 1 else 0) +
        (bns.filter fun x => blockAddr d.disk ip x = 0).length := by
    rw [List.filter_cons]
    split <;> simp_all [Nat.add_comm]
  have hind : (if ip.addrs indirectSlot = 0 ∧ ∃ x ∈ bn :: bns, NDIRECT ≤ x then 1 else 0) =
      (if NDIRECT ≤ bn ∧ ip.addrs indirectSlot = 0 then 1 else 0) +
        if ip'.addrs indirectSlot = 0 ∧ ∃ x ∈ bns, NDIRECT ≤ x then 1 else 0 := by
    by_cases hb : NDIRECT ≤ bn
    · -- past the direct blocks: the indirect block is there afterwards
      have hex : ∃ x ∈ bn :: bns, NDIRECT ≤ x := ⟨bn, List.mem_cons_self, hb⟩
      rw [if_neg (show ¬ (ip'.addrs indirectSlot = 0 ∧ ∃ x ∈ bns, NDIRECT ≤ x) from
        fun h => hm.ind_of_ge hb h.1), Nat.add_zero]
      by_cases hi : ip.addrs indirectSlot = 0
      · rw [if_pos ⟨hi, hex⟩, if_pos ⟨hb, hi⟩]
      · rw [if_neg (fun h => hi h.1), if_neg (fun h => hi h.2)]
    · have hex : (∃ x ∈ bn :: bns, NDIRECT ≤ x) ↔ ∃ x ∈ bns, NDIRECT ≤ x := by
        simp [hb]
      rw [hm.ind_of_lt (Nat.lt_of_not_le hb),
        if_neg (show ¬ (NDIRECT ≤ bn ∧ ip.addrs indirectSlot = 0) from fun h => hb h.1), Nat.zero_add]
      simp only [hex]
  unfold allocNeeds bmapCost
  rw [hlen, hind, hfilter]
  omega

theorem allocNeeds_congr (hmap : blockAddr disk' ip' = blockAddr disk ip)
    (hind : ip'.addrs indirectSlot = ip.addrs indirectSlot) (bns : List Nat) :
    allocNeeds disk' ip' bns = allocNeeds disk ip bns := by
  simp only [allocNeeds, hmap, hind]

end Span

/-! ## The loops of `readi` and `writei` -/

theorem fileBytes_add (disk : Nat → Block) (ip : Dinode) (off m k : Nat) :
    fileBytes disk ip off (m + k) = fileBytes disk ip off m ++ fileBytes disk ip (off + m) k := by
  simp only [fileBytes, List.range_add, List.map_append, List.map_map]
  congr 1
  apply List.map_congr_left
  intro i _
  simp only [Function.comp, Nat.add_assoc]

/-- Writing `src` is writing its first `m` bytes, then the rest after them. -/
theorem patch_take_drop (f : Nat → UInt8) (off : Nat) (src : List UInt8) {m : Nat}
    (hm : m ≤ src.length) :
    patch (patch f off (src.take m)) (off + m) (src.drop m) = patch f off src := by
  funext p
  simp only [patch, List.length_take, List.length_drop, min_eq_left hm]
  by_cases h₁ : off + m ≤ p ∧ p < off + m + (src.length - m)
  · rw [if_pos h₁, if_pos (by omega), List.getD_eq_getElem?_getD, List.getD_eq_getElem?_getD,
      List.getElem?_drop]
    congr 2
    omega
  · rw [if_neg h₁]
    by_cases h₂ : off ≤ p ∧ p < off + m
    · rw [if_pos h₂, if_pos (by omega), List.getD_eq_getElem?_getD, List.getD_eq_getElem?_getD,
        List.getElem?_take, if_pos (by omega)]
    · rw [if_neg h₂, if_neg (by omega)]

theorem fileBytes_congr {disk disk' : Nat → Block} {ip ip' : Dinode}
    (h : fileByte disk' ip' = fileByte disk ip) : fileBytes disk' ip' = fileBytes disk ip := by
  funext off n
  simp only [fileBytes, h]

section Loops

variable {sb : Superblock}

/-- A pass of either loop at `off`, `left` bytes to go: its file block is below `MAXFILE`, and no
later pass comes back to it. -/
theorem pass_block {off left : Nat} (hleft : 0 < left) (hmax : off + left ≤ MAXFILE * BSIZE) :
    off / BSIZE < MAXFILE ∧
      off / BSIZE ∉ spanBlocks (off + min left (BSIZE - off % BSIZE)) (left - min left (BSIZE - off % BSIZE)) := by
  rw [mem_spanBlocks]
  simp only [MAXFILE, NDIRECT, NINDIRECT, BSIZE] at hmax ⊢
  omega

/-- The pass of either loop at `off`, `left` bytes to go: `bmap` maps the block of `off`, and what
the later passes allocate is still free after it. -/
theorem pass_bmap {off left : Nat} {ip : Dinode} {d : Dev} (hinv : AllocInv sb d.disk ip)
    (hleft : 0 < left) (hmax : off + left ≤ MAXFILE * BSIZE)
    (hfree : allocNeeds d.disk ip (spanBlocks off left) ≤ freeCount sb d.disk) :
    ∃ ip₁ d₁, bmap sb ip (off / BSIZE) d = some (blockAddr d₁.disk ip₁ (off / BSIZE), ip₁, d₁) ∧
      Mapped sb (off / BSIZE) d ip d₁ ip₁ ∧ off / BSIZE < MAXFILE ∧
      allocNeeds d₁.disk ip₁ (spanBlocks (off + min left (BSIZE - off % BSIZE))
        (left - min left (BSIZE - off % BSIZE))) ≤ freeCount sb d₁.disk := by
  obtain ⟨hbn, hnot⟩ := pass_block hleft hmax
  rw [spanBlocks_cons hleft] at hfree
  obtain ⟨ip₁, d₁, hb, hm⟩ := bmap_spec hinv hbn (le_trans (bmapCost_le_allocNeeds _ _) hfree)
  rw [allocNeeds_cons hm hnot, ← hm.free] at hfree
  exact ⟨ip₁, d₁, hb, hm, hbn, by omega⟩

theorem readiLoop_spec : ∀ (fuel off left : Nat) {ip : Dinode} {d : Dev},
    AllocInv sb d.disk ip → left ≤ fuel → off + left ≤ MAXFILE * BSIZE →
    allocNeeds d.disk ip (spanBlocks off left) ≤ freeCount sb d.disk →
    ∃ ip' d', readiLoop sb fuel ip off left d = some (fileBytes d.disk ip off left, ip', d') ∧
      AllocInv sb d'.disk ip' ∧ fileByte d'.disk ip' = fileByte d.disk ip ∧ ip'.size = ip.size ∧
      ip'.type = ip.type
  | fuel, _, 0, ip, d, hinv, _, _, _ => ⟨ip, d, by cases fuel <;> rfl, hinv, rfl, rfl, rfl⟩
  | 0, _, _ + 1, _, _, _, hfuel, _, _ => absurd hfuel (by omega)
  | fuel + 1, off, left + 1, ip, d, hinv, hfuel, hmax, hfree => by
    obtain ⟨ip₁, d₁, hb, hm, -, hfree₁⟩ := pass_bmap hinv (Nat.succ_pos left) hmax hfree
    have hlt : 0 < BSIZE - off % BSIZE := Nat.sub_pos_of_lt (Nat.mod_lt off (by decide))
    obtain ⟨ip', d', hloop, hinv', hbytes', hsize', htype'⟩ :=
      readiLoop_spec fuel (off + min (left + 1) (BSIZE - off % BSIZE))
        (left + 1 - min (left + 1) (BSIZE - off % BSIZE)) hm.inv (by omega) (by omega) hfree₁
    refine ⟨ip', d', ?_, hinv', by rw [hbytes', hm.bytes], by rw [hsize', hm.size],
      by rw [htype', hm.type]⟩
    -- the pass copies the file's bytes in the block of `off`, then the loop the rest
    have hchunk : ((List.ofFn (d₁.disk (blockAddr d₁.disk ip₁ (off / BSIZE)))).drop (off % BSIZE)).take
        (min (left + 1) (BSIZE - off % BSIZE)) = fileBytes d.disk ip off (min (left + 1) (BSIZE - off % BSIZE)) := by
      rw [chunk_eq_fileBytes hm.addr_ne (by omega), Nat.div_add_mod', fileBytes_congr hm.bytes]
    rw [readiLoop, hb, Option.bind_eq_bind, Option.bind_some]
    dsimp only
    rw [hloop, Option.bind_eq_bind, Option.bind_some, hchunk, fileBytes_congr hm.bytes,
      ← fileBytes_add, Nat.add_sub_cancel' (min_le_left _ _)]

theorem writeiLoop_spec : ∀ (fuel off : Nat) (src : List UInt8) {ip : Dinode} {d : Dev},
    AllocInv sb d.disk ip → src.length ≤ fuel → off + src.length ≤ MAXFILE * BSIZE →
    allocNeeds d.disk ip (spanBlocks off src.length) ≤ freeCount sb d.disk →
    ∃ ip' d', writeiLoop sb fuel ip off src d = some (ip', d') ∧ AllocInv sb d'.disk ip' ∧
      fileByte d'.disk ip' = patch (fileByte d.disk ip) off src ∧ ip'.size = ip.size ∧
      ip'.type = ip.type
  | fuel, off, [], ip, d, hinv, _, _, _ =>
    ⟨ip, d, by cases fuel <;> rfl, hinv, by funext p; simp [patch], rfl, rfl⟩
  | 0, _, _ :: _, _, _, _, hfuel, _, _ => absurd hfuel (by simp)
  | fuel + 1, off, b :: src, ip, d, hinv, hfuel, hmax, hfree => by
    have hlen : (b :: src).length = src.length + 1 := rfl
    rw [hlen] at hfuel hmax hfree
    obtain ⟨ip₁, d₁, hb, hm, hbn, hfree₁⟩ := pass_bmap hinv (Nat.succ_pos src.length) hmax hfree
    have hlt : 0 < BSIZE - off % BSIZE := Nat.sub_pos_of_lt (Nat.mod_lt off (by decide))
    -- the pass writes its chunk into the block the map gives for `off`
    obtain ⟨m, hmdef⟩ : ∃ m, m = min (src.length + 1) (BSIZE - off % BSIZE) := ⟨_, rfl⟩
    have hchunk : ((b :: src).take m).length = m := by
      rw [List.length_take, hlen]
      omega
    have hheld := holds_of_blockAddr hm.addr_ne
    obtain ⟨hinv₂, hmap₂, hfc₂⟩ := hm.inv.update_held hheld (hm.inv.ind_ne _ hbn hm.addr_ne)
      ((d₁.disk (blockAddr d₁.disk ip₁ (off / BSIZE))).copyIn (off % BSIZE) ((b :: src).take m))
    have hbytes₂ : fileByte (Function.update d₁.disk (blockAddr d₁.disk ip₁ (off / BSIZE))
        ((d₁.disk (blockAddr d₁.disk ip₁ (off / BSIZE))).copyIn (off % BSIZE) ((b :: src).take m))) ip₁ =
        patch (fileByte d.disk ip) off ((b :: src).take m) := by
      rw [fileByte_copyIn hm.inv hm.addr_ne (by omega), Nat.div_add_mod', hm.bytes]
    obtain ⟨ip', d', hloop, hinv', hbytes', hsize', htype'⟩ :=
      writeiLoop_spec fuel (off + m) ((b :: src).drop m)
        (d := d₁.write (blockAddr d₁.disk ip₁ (off / BSIZE))
          ((d₁.disk (blockAddr d₁.disk ip₁ (off / BSIZE))).copyIn (off % BSIZE) ((b :: src).take m)))
        hinv₂ (by rw [List.length_drop, hlen]; omega) (by rw [List.length_drop, hlen]; omega)
        (by rw [Dev.write_disk, allocNeeds_congr hmap₂ rfl, hfc₂, List.length_drop, hlen, hmdef]
            exact hfree₁)
    refine ⟨ip', d', ?_, hinv', ?_, by rw [hsize', hm.size], by rw [htype', hm.type]⟩
    · rw [writeiLoop, hb, Option.bind_eq_bind, Option.bind_some]
      dsimp only
      rw [← hmdef]
      exact hloop
    · rw [hbytes', Dev.write_disk, hbytes₂, patch_take_drop _ _ _ (by rw [hlen]; omega)]

end Loops

/-! ## `readi` and `writei` -/

section Calls

variable {sb : Superblock} {ip : Dinode} {d : Dev}

/-- `readi` from `off ≤ size`: `min n (size - off)` bytes, the file's; it fills the holes it crosses,
which changes none of the file's bytes. -/
theorem readi_spec {off n : Nat} (hinv : AllocInv sb d.disk ip) (hdev : ip.type ≠ T_DEV)
    (hsize : ip.size ≤ MAXFILE * BSIZE) (hoff : off ≤ ip.size) (hwrap : off + n < 2 ^ 32)
    (hfree : allocNeeds d.disk ip (spanBlocks off (min n (ip.size - off))) ≤ freeCount sb d.disk) :
    ∃ ip' d', readi sb ip off n d =
        some (((min n (ip.size - off) : Nat) : Int), fileBytes d.disk ip off (min n (ip.size - off)), ip',
          d') ∧
      AllocInv sb d'.disk ip' ∧ fileByte d'.disk ip' = fileByte d.disk ip ∧ ip'.size = ip.size ∧
      ip'.type = ip.type := by
  have hcount : (if ip.size < off + n then ip.size - off else n) = min n (ip.size - off) := by
    split <;> omega
  obtain ⟨ip', d', hloop, hrest⟩ := readiLoop_spec (min n (ip.size - off)) off
    (min n (ip.size - off)) hinv le_rfl (by omega) hfree
  refine ⟨ip', d', ?_, hrest⟩
  rw [readi, if_neg hdev, if_neg (show ¬ (ip.size < off ∨ 2 ^ 32 ≤ off + n) by omega)]
  dsimp only
  rw [hcount, hloop, Option.map_some]

/-- `writei` of `src` at `off ≤ size`, within `MAXFILE` blocks: it returns `n`, writes `src` over
the file's bytes from `off`, and grows `size` to the end of the write. -/
theorem writei_spec {src : List UInt8} {off : Nat} (hinv : AllocInv sb d.disk ip)
    (hdev : ip.type ≠ T_DEV) (hoff : off ≤ ip.size) (hmax : off + src.length ≤ MAXFILE * BSIZE)
    (hfree : allocNeeds d.disk ip (spanBlocks off src.length) ≤ freeCount sb d.disk) :
    ∃ ip' d', writei sb ip src off d = some ((src.length : Int), ip', d') ∧ AllocInv sb d'.disk ip' ∧
      fileByte d'.disk ip' = patch (fileByte d.disk ip) off src ∧
      ip'.size = max ip.size (off + src.length) ∧ ip'.type = ip.type := by
  obtain ⟨ip₁, d', hloop, hinv', hbytes', hsize', htype'⟩ :=
    writeiLoop_spec src.length off src hinv le_rfl hmax hfree
  have hcall : writei sb ip src off d = some ((src.length : Int),
      if 0 < src.length ∧ ip₁.size < off + src.length then { ip₁ with size := off + src.length }
        else ip₁, d') := by
    have hwrap : ¬ 2 ^ 32 ≤ off + src.length := by
      simp only [MAXFILE, NDIRECT, NINDIRECT, BSIZE] at hmax
      omega
    rw [writei, if_neg hdev, if_neg (show ¬ (ip.size < off ∨ 2 ^ 32 ≤ off + src.length) by omega),
      if_neg (show ¬ MAXFILE * BSIZE < off + src.length by omega), hloop, Option.map_some]
  by_cases hgrow : 0 < src.length ∧ ip₁.size < off + src.length
  · -- the write ends past `size`
    refine ⟨{ ip₁ with size := off + src.length }, d', by rw [hcall, if_pos hgrow], hinv'.of_addrs rfl,
      hbytes', ?_, htype'⟩
    show off + src.length = max ip.size (off + src.length)
    omega
  · refine ⟨ip₁, d', by rw [hcall, if_neg hgrow], hinv', hbytes', ?_, htype'⟩
    rw [hsize'] at hgrow ⊢
    omega

/-- `readi` returns `-1` exactly when `off` is past `size` or `off + n` wraps. -/
theorem readi_neg_one_iff (hdev : ip.type ≠ T_DEV) (off n : Nat) :
    (readi sb ip off n d).map Prod.fst = some (-1) ↔ ip.size < off ∨ 2 ^ 32 ≤ off + n := by
  rw [readi, if_neg hdev]
  split
  · rename_i h
    simp only [Option.map_some, h]
  · rename_i h
    simp only [h, iff_false]
    cases readiLoop sb _ ip off _ d
    · simp
    · simp only [Option.map_some, Option.some.injEq]
      split <;> omega

/-- `writei` returns `-1` exactly when `off` is past `size`, `off + n` wraps, or the write would
end past `MAXFILE` blocks. -/
theorem writei_neg_one_iff (hdev : ip.type ≠ T_DEV) (src : List UInt8) (off : Nat) :
    (writei sb ip src off d).map Prod.fst = some (-1) ↔
      ip.size < off ∨ 2 ^ 32 ≤ off + src.length ∨ MAXFILE * BSIZE < off + src.length := by
  rw [writei, if_neg hdev]
  split
  · rename_i h
    simp only [Option.map_some, true_iff]
    exact h.elim Or.inl (fun h => Or.inr (Or.inl h))
  · rename_i h
    split
    · rename_i h'
      simp only [Option.map_some, true_iff]
      exact Or.inr (Or.inr h')
    · rename_i h'
      simp only [h, h', iff_false, or_false]
      rcases writeiLoop sb src.length ip off src d with _ | ⟨_, _⟩ <;> simp

end Calls

/-! ## The file as a byte array -/

/-- The bytes `[0, max size (off + n))` after writing `src` at `off ≤ size`: the old bytes with
`src` over them from `off`. -/
theorem range_map_patch (f : Nat → UInt8) {size off : Nat} (src : List UInt8) (hoff : off ≤ size) :
    (List.range (max size (off + src.length))).map (patch f off src) =
      ((List.range size).map f).take off ++ src ++ ((List.range size).map f).drop (off + src.length) := by
  apply List.ext_getElem
  · simp only [List.length_map, List.length_range, List.length_append, List.length_take,
      List.length_drop]
    omega
  · intro i h₁ h₂
    simp only [List.length_map, List.length_range] at h₁
    have htake : (((List.range size).map f).take off).length = off := by
      rw [List.length_take, List.length_map, List.length_range]
      omega
    rw [List.getElem_map, List.getElem_range, patch]
    by_cases ha : i < off
    · -- before the write
      rw [if_neg (by omega), List.getElem_append_left (by simp only [List.length_append]; omega),
        List.getElem_append_left (by omega), List.getElem_take, List.getElem_map, List.getElem_range]
    · by_cases hb : i < off + src.length
      · -- in the write
        rw [if_pos ⟨by omega, hb⟩, List.getElem_append_left (by simp only [List.length_append]; omega),
          List.getElem_append_right (by omega), List.getD_eq_getElem?_getD,
          List.getElem?_eq_getElem (by omega), Option.getD_some]
        congr 1
        omega
      · -- after it
        rw [if_neg (by omega), List.getElem_append_right (by simp only [List.length_append]; omega),
          List.getElem_drop, List.getElem_map, List.getElem_range]
        congr 1
        simp only [List.length_append, htake]
        omega

theorem fileBytes_zero (disk : Nat → Block) (ip : Dinode) (n : Nat) :
    fileBytes disk ip 0 n = (List.range n).map (fileByte disk ip) := by
  simp only [fileBytes, Nat.zero_add]

/-- What `readi` returns from `off` is the slice of the bytes `[0, size)` at `off`. -/
theorem fileBytes_eq_take_drop (disk : Nat → Block) (ip : Dinode) (size off n : Nat) :
    fileBytes disk ip off (min n (size - off)) = ((fileBytes disk ip 0 size).drop off).take n := by
  apply List.ext_getElem
  · simp only [fileBytes, List.length_map, List.length_range, List.length_take, List.length_drop]
  · intro i _ _
    simp only [fileBytes, List.getElem_map, List.getElem_range, List.getElem_take, List.getElem_drop,
      Nat.zero_add]

/-! ## Writing a file, then reading it -/

/-- A disk of eight blocks whose free map, in block `1`, marks blocks `0` and `1` in use. -/
def tinySb : Superblock := ⟨8, 6, 0, 0, 0, 0, 1⟩

def tinyDev : Dev := ⟨fun b => if b = 1 then (zeroes.setBit 0).setBit 1 else zeroes, []⟩

/-- A file just created, with no blocks. -/
def newFile : Dinode := ⟨T_FILE, 0, 0, 1, 0, fun _ => 0⟩

/-- A file whose first two blocks are one disk block, block `2`, which the free map marks in use. -/
def aliasedFile : Dinode := ⟨T_FILE, 0, 0, 1, 2 * BSIZE, fun i => if i.val < 2 then 2 else 0⟩

def aliasedDev : Dev := ⟨fun b => if b = 1 then ((zeroes.setBit 0).setBit 1).setBit 2 else zeroes, []⟩

end Xv6
