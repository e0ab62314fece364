import Xv6.Fs.Blocks
import Xv6.Fs.Log

/-!
# `mkfs.c`: the file-system image

* the layout mkfs computes (`NINODES`, `nbitmap`, `ninodeblocks`, `nmeta`, `Mkfs.sb`);
* `Mkfs` : the image being built with mkfs's globals `freeinode` and `freeblock`; inodes are
  kept as `struct dinode`s, which `rinode` and `winode` read and write whole;
* `Mkfs.ialloc`, `Mkfs.iappend` (its loop `iappendLoop`, the block it writes found by
  `blockFor`), `Mkfs.balloc`, and `mkfs` : `main` over the host files.

The root directory gets one 16-byte entry per file after `.` and `..`, and `main` then sets its
size to `(size / BSIZE + 1) * BSIZE`. Where the entries end on a block boundary that is one
block past the last block `iappend` allocated (`mkfs_root_hole`): the kernel's `readi` of that
block allocates it.
-/

namespace Xv6

def NINODES : Nat := 200

def nbitmap : Nat := FSSIZE / (BSIZE * 8) + 1

def ninodeblocks : Nat := NINODES / IPB + 1

/-- Number of meta blocks (boot, sb, nlog, inode, bitmap). -/
def nmeta : Nat := 2 + nlog + ninodeblocks + nbitmap

/-- Number of data blocks. -/
def nblocks : Nat := FSSIZE - nmeta

/-- The image being built: its blocks, its inodes, and the next free inode and block. -/
structure Mkfs where
  disk : Nat → Block
  dinodes : Nat → Dinode
  freeinode : Nat
  freeblock : Nat

namespace Mkfs

/-- The superblock `main` writes. -/
def sb : Superblock :=
  ⟨FSSIZE, nblocks, NINODES, nlog, 2, 2 + nlog, 2 + nlog + ninodeblocks⟩

def wsect (m : Mkfs) (sec : Nat) (buf : Block) : Mkfs :=
  { m with disk := Function.update m.disk sec buf }

def rsect (m : Mkfs) (sec : Nat) : Block := m.disk sec

def winode (m : Mkfs) (inum : Nat) (ip : Dinode) : Mkfs :=
  { m with dinodes := Function.update m.dinodes inum ip }

def rinode (m : Mkfs) (inum : Nat) : Dinode := m.dinodes inum

/-- `freeinode++` and a zeroed inode of the type with one link. -/
def ialloc (m : Mkfs) (type : Int) : Nat × Mkfs :=
  let inum := m.freeinode
  (inum, { m with freeinode := inum + 1 }.winode inum { Dinode.zero with type, nlink := 1, size := 0 })

/-- `freeblock++`. -/
def nextBlock (m : Mkfs) : Nat × Mkfs := (m.freeblock, { m with freeblock := m.freeblock + 1 })

/-- The block `iappend` writes for file block `fbn` of `din`, allocated from `freeblock` where
the direct slot, or the indirect block or its entry, is `0`. -/
def blockFor (m : Mkfs) (din : Dinode) (fbn : Nat) (h : fbn < MAXFILE) : Nat × Dinode × Mkfs :=
  if hd : fbn < NDIRECT then
    let i := directSlot fbn hd
    if din.addrs i = 0 then
      let (a, m) := m.nextBlock
      (a, din.setAddr i a, m)
    else (din.addrs i, din, m)
  else
    let (din, m) :=
      if din.addrs indirectSlot = 0 then
        let (a, m) := m.nextBlock
        (din.setAddr indirectSlot a, m)
      else (din, m)
    let ind := din.addrs indirectSlot
    let indirect := m.rsect ind
    let k : Fin NINDIRECT := ⟨fbn - NDIRECT, by simp only [MAXFILE] at h; omega⟩
    if indirect.getUint k = 0 then
      let (a, m) := m.nextBlock
      (a, din, m.wsect ind (indirect.setUint k a))
    else (indirect.getUint k, din, m)

/-- `bcopy(src, buf + start, n)` for the bytes `src`. -/
def bcopy (src : List UInt8) (buf : Block) (start : Nat) : Block := fun j =>
  if start ≤ j.val ∧ j.val < start + src.length then src.getD (j.val - start) 0 else buf j

/-- The loop of `iappend`: the bytes `p` at offset `off`, each pass filling the rest of one
block. The fuel bounds the passes, each taking at least one byte. -/
def iappendLoop : Nat → Mkfs → Dinode → Nat → List UInt8 → Option (Mkfs × Dinode × Nat)
  | _, m, din, off, [] => some (m, din, off)
  | 0, _, _, _, _ :: _ => none
  | fuel + 1, m, din, off, b :: p =>
    let fbn := off / BSIZE
    if h : fbn < MAXFILE then
      let (x, din, m) := m.blockFor din fbn h
      let n1 := min (p.length + 1) ((fbn + 1) * BSIZE - off)
      let buf := bcopy ((b :: p).take n1) (m.rsect x) (off - fbn * BSIZE)
      (m.wsect x buf).iappendLoop fuel din (off + n1) ((b :: p).drop n1)
    else none  -- assert(fbn < MAXFILE)

def iappend (m : Mkfs) (inum : Nat) (p : List UInt8) : Option Mkfs :=
  let din := m.rinode inum
  (m.iappendLoop p.length din din.size p).map fun (m, din, off) =>
    m.winode inum { din with size := off }

/-- The host loop `while((cc = read(fd, buf, sizeof(buf))) > 0) iappend(inum, buf, cc);`,
each `read` of a regular file returning the next `BSIZE` bytes or what is left. -/
def appendData (inum : Nat) : Nat → Mkfs → List UInt8 → Option Mkfs
  | _, m, [] => some m
  | 0, _, _ :: _ => none
  | fuel + 1, m, b :: data =>
    (m.iappend inum ((b :: data).take BSIZE)).bind fun m =>
      appendData inum fuel m ((b :: data).drop BSIZE)

/-- The bitmap block marking the first `used` blocks. -/
def bitmap (used : Nat) : Block := (List.range used).foldl Block.setBit zeroes

def balloc (m : Mkfs) (used : Nat) : Option Mkfs :=
  if used < BSIZE * 8 then some (m.wsect sb.bmapstart (bitmap used))
  else none  -- assert(used < BSIZE*8)

end Mkfs

/-- A file named on mkfs's command line, with the bytes it holds. -/
structure HostFile where
  name : List UInt8
  data : List UInt8

namespace Mkfs

/-- The body of `main`'s loop over `argv[2..]`. -/
def addFile (rootino : Nat) (m : Mkfs) (f : HostFile) : Option Mkfs :=
  if 47 ∈ f.name then none  -- assert(index(argv[i], '/') == 0)
  else
    -- Skip leading _ in name when writing to file system.
    let name := if f.name.head? = some 95 then f.name.tail else f.name
    let (inum, m) := m.ialloc T_FILE
    (m.iappend rootino (Dirent.bytes ⟨inum, strncpy name⟩)).bind fun m =>
      appendData inum f.data.length m f.data

end Mkfs

/-- The image before any inode: every block zero, the first free inode `1` and the first free
block `nmeta`. -/
def Mkfs.empty : Mkfs := ⟨fun _ => zeroes, fun _ => Dinode.zero, 1, nmeta⟩

/-- `main`: the root directory with `.` and `..`, the files, the root's size, the bitmap. -/
def mkfs (files : List HostFile) : Option Mkfs :=
  let (rootino, m) := Mkfs.empty.ialloc T_DIR
  if rootino ≠ ROOTINO then none  -- assert(rootino == ROOTINO)
  else do
    let m ← m.iappend rootino (Dirent.bytes ⟨rootino, strncpy [46]⟩)
    let m ← m.iappend rootino (Dirent.bytes ⟨rootino, strncpy [46, 46]⟩)
    let m ← files.foldlM (Mkfs.addFile rootino) m
    -- fix size of root inode dir
    let din := m.rinode rootino
    let off := (din.size / BSIZE + 1) * BSIZE
    (m.winode rootino { din with size := off }).balloc m.freeblock

/-! ## The image operations -/

namespace Mkfs

@[simp] theorem wsect_dinodes (m : Mkfs) (sec : Nat) (buf : Block) :
    (m.wsect sec buf).dinodes = m.dinodes := rfl

@[simp] theorem wsect_freeinode (m : Mkfs) (sec : Nat) (buf : Block) :
    (m.wsect sec buf).freeinode = m.freeinode := rfl

@[simp] theorem wsect_freeblock (m : Mkfs) (sec : Nat) (buf : Block) :
    (m.wsect sec buf).freeblock = m.freeblock := rfl

@[simp] theorem wsect_disk (m : Mkfs) (sec : Nat) (buf : Block) :
    (m.wsect sec buf).disk = Function.update m.disk sec buf := rfl

@[simp] theorem rinode_wsect (m : Mkfs) (sec : Nat) (buf : Block) (j : Nat) :
    (m.wsect sec buf).rinode j = m.rinode j := rfl

@[simp] theorem winode_disk (m : Mkfs) (inum : Nat) (ip : Dinode) :
    (m.winode inum ip).disk = m.disk := rfl

@[simp] theorem winode_freeinode (m : Mkfs) (inum : Nat) (ip : Dinode) :
    (m.winode inum ip).freeinode = m.freeinode := rfl

@[simp] theorem winode_freeblock (m : Mkfs) (inum : Nat) (ip : Dinode) :
    (m.winode inum ip).freeblock = m.freeblock := rfl

@[simp] theorem rinode_winode (m : Mkfs) (inum j : Nat) (ip : Dinode) :
    (m.winode inum ip).rinode j = if j = inum then ip else m.rinode j := by
  simp [winode, rinode, Function.update_apply]

@[simp] theorem nextBlock_dinodes (m : Mkfs) : m.nextBlock.2.dinodes = m.dinodes := rfl

@[simp] theorem nextBlock_freeinode (m : Mkfs) : m.nextBlock.2.freeinode = m.freeinode := rfl

@[simp] theorem setAddr_type (ip : Dinode) (i : Fin (NDIRECT + 1)) (a : Nat) :
    (ip.setAddr i a).type = ip.type := rfl

theorem setAddr_addrs_of_ne {ip : Dinode} {i j : Fin (NDIRECT + 1)} (a : Nat) (h : j ≠ i) :
    (ip.setAddr i a).addrs j = ip.addrs j :=
  Function.update_of_ne h _ _

/-- No direct slot at or past the end `size` of the file holds a block. -/
def Tight (din : Dinode) (size : Nat) : Prop :=
  ∀ i : Fin (NDIRECT + 1), i.val < NDIRECT → size ≤ i.val * BSIZE → din.addrs i = 0

theorem tight_zero : Tight Dinode.zero 0 := fun _ _ _ => rfl

/-- `blockFor` writes no inode, and of `addrs` only the slot of `fbn` or the indirect slot. -/
theorem blockFor_frame {m m' : Mkfs} {din din' : Dinode} {fbn x : Nat} {h : fbn < MAXFILE}
    (hb : m.blockFor din fbn h = (x, din', m')) :
    m'.dinodes = m.dinodes ∧ m'.freeinode = m.freeinode ∧ din'.type = din.type ∧
      ∀ i : Fin (NDIRECT + 1), i.val < NDIRECT → i.val ≠ fbn → din'.addrs i = din.addrs i := by
  have hind : ∀ i : Fin (NDIRECT + 1), i.val < NDIRECT → i ≠ indirectSlot := by
    intro i hi heq
    simp [heq, indirectSlot] at hi
  have key : (m.blockFor din fbn h).2.2.dinodes = m.dinodes ∧
      (m.blockFor din fbn h).2.2.freeinode = m.freeinode ∧
      (m.blockFor din fbn h).2.1.type = din.type ∧
      ∀ i : Fin (NDIRECT + 1), i.val < NDIRECT → i.val ≠ fbn →
        (m.blockFor din fbn h).2.1.addrs i = din.addrs i := by
    unfold blockFor
    by_cases hd : fbn < NDIRECT
    · by_cases h0 : din.addrs (directSlot fbn hd) = 0
      · simp only [hd, h0, dite_true, if_true]
        refine ⟨rfl, rfl, rfl, fun i _ hi => setAddr_addrs_of_ne _ fun heq => hi ?_⟩
        rw [heq]
        rfl
      · simp [hd, h0]
    · simp only [hd, dite_false]
      -- the indirect branch changes `addrs` in the indirect slot only, if at all
      split_ifs <;> refine ⟨rfl, rfl, rfl, fun i hi _ => ?_⟩ <;>
        first | rfl | exact setAddr_addrs_of_ne _ (hind i hi)
  rw [hb] at key
  exact key

/-- One pass of `iappend` keeps the slots past the new end empty: the pass takes at least one
byte of block `fbn`, so every slot at or past the new end lies past the old one and is not
`fbn`. -/
theorem Tight.blockFor {m : Mkfs} {din : Dinode} {off n1 : Nat} (ht : Tight din off)
    (h : off / BSIZE < MAXFILE) (hn1 : 0 < n1) :
    Tight (m.blockFor din (off / BSIZE) h).2.1 (off + n1) := by
  intro i hi hle
  have hfbn : i.val ≠ off / BSIZE := by
    simp only [BSIZE] at hle ⊢
    omega
  rcases hb : m.blockFor din (off / BSIZE) h with ⟨x, din', m'⟩
  rw [(blockFor_frame hb).2.2.2 i hi hfbn]
  exact ht i hi (by omega)

/-- The loop of `iappend` writes no inode, ends at `off + p.length`, keeps the type and keeps
the slots past the end empty. -/
theorem iappendLoop_spec {fuel : Nat} {m m' : Mkfs} {din din' : Dinode} {off off' : Nat}
    {p : List UInt8} (h : m.iappendLoop fuel din off p = some (m', din', off')) :
    m'.dinodes = m.dinodes ∧ m'.freeinode = m.freeinode ∧ din'.type = din.type ∧
      off' = off + p.length ∧ (Tight din off → Tight din' off') := by
  induction fuel generalizing m din off p with
  | zero =>
    cases p with
    | nil =>
      simp only [iappendLoop, Option.some.injEq, Prod.mk.injEq] at h
      obtain ⟨rfl, rfl, rfl⟩ := h
      simp
    | cons b p => simp [iappendLoop] at h
  | succ fuel ih =>
    cases p with
    | nil =>
      simp only [iappendLoop, Option.some.injEq, Prod.mk.injEq] at h
      obtain ⟨rfl, rfl, rfl⟩ := h
      simp
    | cons b p =>
      simp only [iappendLoop] at h
      split_ifs at h with hf
      rcases hb : m.blockFor din (off / BSIZE) hf with ⟨x, din₁, m₁⟩
      obtain ⟨hdin, hfree, htype, -⟩ := blockFor_frame hb
      rw [hb] at h
      dsimp only at h
      obtain ⟨hdin', hfree', htype', hoff', ht'⟩ := ih h
      have hn1 : 0 < min (p.length + 1) ((off / BSIZE + 1) * BSIZE - off) := by
        simp only [BSIZE]
        omega
      refine ⟨by simp [hdin', hdin], by simp [hfree', hfree], htype'.trans htype, ?_, ?_⟩
      · rw [hoff', List.length_drop, List.length_cons]
        omega
      · intro ht
        apply ht'
        have := Tight.blockFor (m := m) ht hf hn1
        rwa [hb] at this

theorem ialloc_spec {m m' : Mkfs} {type : Int} {inum : Nat} (h : m.ialloc type = (inum, m')) :
    inum = m.freeinode ∧ m'.freeinode = m.freeinode + 1 ∧
      (∀ j, j ≠ inum → m'.rinode j = m.rinode j) ∧
      m'.rinode inum = { Dinode.zero with type, nlink := 1, size := 0 } := by
  simp only [ialloc, Prod.mk.injEq] at h
  obtain ⟨rfl, rfl⟩ := h
  refine ⟨rfl, rfl, fun j hj => ?_, by simp⟩
  rw [rinode_winode, if_neg hj]
  rfl

theorem tight_size (din : Dinode) (size n : Nat) : Tight { din with size } n ↔ Tight din n :=
  Iff.rfl

/-- `iappend` writes only inode `inum`: it keeps its type, grows its size by the bytes appended
and keeps the slots past its end empty. -/
theorem iappend_spec {m m' : Mkfs} {inum : Nat} {p : List UInt8} (h : m.iappend inum p = some m') :
    (∀ j, j ≠ inum → m'.rinode j = m.rinode j) ∧ m'.freeinode = m.freeinode ∧
      (m'.rinode inum).type = (m.rinode inum).type ∧
      (m'.rinode inum).size = (m.rinode inum).size + p.length ∧
      (Tight (m.rinode inum) (m.rinode inum).size → Tight (m'.rinode inum) (m'.rinode inum).size) := by
  unfold iappend at h
  obtain ⟨⟨m₁, din₁, off₁⟩, hl, rfl⟩ := Option.map_eq_some_iff.mp h
  obtain ⟨hdin, hfree, htype, hoff, ht⟩ := iappendLoop_spec hl
  refine ⟨fun j hj => ?_, by simp [hfree], by simp [htype], by simp [hoff], fun h0 => ?_⟩
  · simp only [rinode_winode, hj, if_false]
    simp [rinode, hdin]
  · simp only [rinode_winode, if_true, tight_size]
    exact ht h0

/-- Appending a file's data writes only its inode. -/
theorem appendData_frame {inum fuel : Nat} {m m' : Mkfs} {data : List UInt8}
    (h : appendData inum fuel m data = some m') :
    (∀ j, j ≠ inum → m'.rinode j = m.rinode j) ∧ m'.freeinode = m.freeinode := by
  induction fuel generalizing m data with
  | zero =>
    cases data with
    | nil =>
      simp only [appendData, Option.some.injEq] at h
      exact ⟨fun _ _ => by rw [h], by rw [h]⟩
    | cons b data => simp [appendData] at h
  | succ fuel ih =>
    cases data with
    | nil =>
      simp only [appendData, Option.some.injEq] at h
      exact ⟨fun _ _ => by rw [h], by rw [h]⟩
    | cons b data =>
      simp only [appendData] at h
      obtain ⟨m₁, h₁, h₂⟩ := Option.bind_eq_some_iff.mp h
      obtain ⟨hj₁, hf₁, -⟩ := iappend_spec h₁
      obtain ⟨hj₂, hf₂⟩ := ih h₂
      exact ⟨fun j hj => (hj₂ j hj).trans (hj₁ j hj), hf₂.trans hf₁⟩

/-- What the loop over the files keeps of the root directory: its type, no block past its
end, and every inode it allocates numbered past it. -/
structure RootInv (rootino : Nat) (m : Mkfs) : Prop where
  type : (m.rinode rootino).type = T_DIR
  tight : Tight (m.rinode rootino) (m.rinode rootino).size
  allocated : rootino < m.freeinode

theorem RootInv.iappend {rootino : Nat} {m m' : Mkfs} {p : List UInt8} (hi : RootInv rootino m)
    (h : m.iappend rootino p = some m') :
    RootInv rootino m' ∧ (m'.rinode rootino).size = (m.rinode rootino).size + p.length := by
  obtain ⟨-, hf, ht, hs, htight⟩ := iappend_spec h
  exact ⟨⟨ht.trans hi.type, htight hi.tight, hf ▸ hi.allocated⟩, hs⟩

/-- Each file adds one 16-byte entry to the root and writes no other part of it. -/
theorem RootInv.addFile {rootino : Nat} {m m' : Mkfs} {f : HostFile} (hi : RootInv rootino m)
    (h : Xv6.Mkfs.addFile rootino m f = some m') :
    RootInv rootino m' ∧ (m'.rinode rootino).size = (m.rinode rootino).size + 16 := by
  unfold Xv6.Mkfs.addFile at h
  by_cases hs : 47 ∈ f.name
  · simp [hs] at h
  rw [if_neg hs] at h
  rcases hia : m.ialloc T_FILE with ⟨inum, m₀⟩
  obtain ⟨rfl, hf₀, hj₀, -⟩ := ialloc_spec hia
  simp only [hia] at h
  obtain ⟨m₁, h₁, h₂⟩ := Option.bind_eq_some_iff.mp h
  -- the file's inode is `freeinode`, past the root
  have hne : rootino ≠ m.freeinode := Nat.ne_of_lt hi.allocated
  have hroot : m₀.rinode rootino = m.rinode rootino := hj₀ rootino hne
  have hi₀ : RootInv rootino m₀ :=
    ⟨hroot ▸ hi.type, hroot ▸ hi.tight, hf₀ ▸ Nat.lt_succ_of_lt hi.allocated⟩
  obtain ⟨hi₁, hs₁⟩ := hi₀.iappend h₁
  obtain ⟨hj₂, hf₂⟩ := appendData_frame h₂
  have hr₂ : m'.rinode rootino = m₁.rinode rootino := hj₂ rootino hne
  refine ⟨⟨hr₂ ▸ hi₁.type, hr₂ ▸ hi₁.tight, hf₂ ▸ hi₁.allocated⟩, ?_⟩
  rw [hr₂, hs₁, hroot, Dirent.bytes_length]

theorem RootInv.foldlM {rootino : Nat} {files : List HostFile} {m m' : Mkfs}
    (hi : RootInv rootino m) (h : files.foldlM (Xv6.Mkfs.addFile rootino) m = some m') :
    RootInv rootino m' ∧ (m'.rinode rootino).size = (m.rinode rootino).size + 16 * files.length := by
  induction files generalizing m with
  | nil =>
    simp only [List.foldlM_nil] at h
    cases h
    exact ⟨hi, by simp⟩
  | cons f files ih =>
    rw [List.foldlM_cons] at h
    obtain ⟨m₁, h₁, h₂⟩ := Option.bind_eq_some_iff.mp h
    obtain ⟨hi₁, hs₁⟩ := hi.addFile h₁
    obtain ⟨hi₂, hs₂⟩ := ih hi₁ h₂
    refine ⟨hi₂, ?_⟩
    rw [hs₂, hs₁, List.length_cons]
    ring

/-- The bitmap `balloc` writes marks exactly the blocks below `used`. -/
theorem bitmap_bitSet {used bi : Nat} (hu : used ≤ BPB) (hbi : bi < BPB) :
    (bitmap used).bitSet bi = decide (bi < used) := by
  induction used with
  | zero => simp [bitmap]
  | succ u ih =>
    have hb : bitmap (u + 1) = (bitmap u).setBit u := by
      simp [bitmap, List.range_succ]
    rw [hb, bitSet_setBit _ (by omega) hbi, ih (by omega)]
    rcases Nat.lt_trichotomy bi u with h | rfl | h
    · simp [h, Nat.lt_succ_of_lt h]
    · simp
    · have h' : ¬ bi < u + 1 := by omega
      simp [h', Nat.ne_of_lt h]
      omega

end Mkfs

/-- The root directory `mkfs` leaves: its entries `.`, `..` and one per file, 16 bytes each,
and the size `main` sets; the bitmap block marks the blocks below `freeblock`. -/
theorem mkfs_root {files : List HostFile} {m : Mkfs} (h : mkfs files = some m) :
    ∃ din : Dinode, m.rinode ROOTINO = { din with size := (din.size / BSIZE + 1) * BSIZE } ∧
      din.type = T_DIR ∧ Mkfs.Tight din din.size ∧ din.size = 16 * (files.length + 2) ∧
      m.disk Mkfs.sb.bmapstart = Mkfs.bitmap m.freeblock := by
  unfold mkfs at h
  rcases hia : Mkfs.empty.ialloc T_DIR with ⟨rootino, m₀⟩
  obtain ⟨hr, hf₀, -, hroot₀⟩ := Mkfs.ialloc_spec hia
  have hr1 : rootino = ROOTINO := hr
  subst hr1
  simp only [hia, ne_eq, not_true_eq_false, if_false] at h
  obtain ⟨m₁, h₁, h⟩ := Option.bind_eq_some_iff.mp h
  obtain ⟨m₂, h₂, h⟩ := Option.bind_eq_some_iff.mp h
  obtain ⟨m₃, h₃, h⟩ := Option.bind_eq_some_iff.mp h
  -- the root starts empty, with every slot `0`
  have hi₀ : Mkfs.RootInv ROOTINO m₀ := by
    refine ⟨by simp [hroot₀], ?_, by simp [hf₀, Mkfs.empty, ROOTINO]⟩
    rw [hroot₀]
    exact Mkfs.tight_zero
  obtain ⟨hi₁, hs₁⟩ := hi₀.iappend h₁
  obtain ⟨hi₂, hs₂⟩ := hi₁.iappend h₂
  obtain ⟨hi₃, hs₃⟩ := hi₂.foldlM h₃
  unfold Mkfs.balloc at h
  split_ifs at h
  cases h
  refine ⟨m₃.rinode ROOTINO, by simp, hi₃.type, hi₃.tight, ?_, by simp⟩
  rw [hs₃, hs₂, hs₁, hroot₀, Dirent.bytes_length, Dirent.bytes_length]
  simp only
  ring

/-- The kernel's `balloc` on the image: its bitmap block marks the blocks below `freeblock`,
so the first free block is `freeblock`. -/
theorem balloc_image {m : Mkfs} (hmap : m.disk Mkfs.sb.bmapstart = Mkfs.bitmap m.freeblock)
    (hfree : m.freeblock < FSSIZE) (logged : List Nat) :
    ∃ d, balloc Mkfs.sb ⟨m.disk, logged⟩ = some (m.freeblock, d) ∧ d.disk m.freeblock = zeroes ∧
      d.logged = logged ++ [Mkfs.sb.bmapstart, m.freeblock] := by
  have hsize : Mkfs.sb.size ≤ BPB := by decide
  have hbits : ∀ bi < Mkfs.sb.size, ((⟨m.disk, logged⟩ : Dev).disk (BBLOCK 0 Mkfs.sb)).bitSet bi =
      decide (bi < m.freeblock) := by
    intro bi hbi
    have hb : BBLOCK 0 Mkfs.sb = Mkfs.sb.bmapstart := by simp [BBLOCK]
    dsimp only
    rw [hb, hmap, Mkfs.bitmap_bitSet (by simp only [FSSIZE, BPB, BSIZE] at hfree ⊢; omega)
      (by omega)]
  rw [balloc_of_size_le (by decide) hsize, freeBit_of_prefix hfree hsize hbits]
  refine ⟨_, rfl, by simp [bzero], by simp [bzero, BBLOCK]⟩

/-- Where the root's entries end on a block boundary, `main`'s rounding makes its size one
block longer than its blocks: the direct slot of that block is `0`, and the kernel's `readi`
of it, although it lies below `size`, makes `bmap` allocate block `freeblock`, writing the
bitmap block and the new block through `log_write`. -/
theorem mkfs_root_hole {files : List HostFile} {m : Mkfs} (hm : mkfs files = some m)
    (hblk : 16 * (files.length + 2) % BSIZE = 0)
    (hdir : 16 * (files.length + 2) / BSIZE < NDIRECT) (hfree : m.freeblock < FSSIZE) :
    (m.rinode ROOTINO).size = (16 * (files.length + 2) / BSIZE + 1) * BSIZE ∧
      blockAddr m.disk (m.rinode ROOTINO) (16 * (files.length + 2) / BSIZE) = 0 ∧
      ∀ logged, ∃ disk,
        readi Mkfs.sb (m.rinode ROOTINO) (16 * (files.length + 2) / BSIZE * BSIZE) BSIZE
            ⟨m.disk, logged⟩ =
          some ((BSIZE : Int), List.replicate BSIZE 0,
            (m.rinode ROOTINO).setAddr (directSlot _ hdir) m.freeblock,
            ⟨disk, logged ++ [Mkfs.sb.bmapstart, m.freeblock]⟩) := by
  obtain ⟨din, hroot, htype, htight, hsize, hmap⟩ := mkfs_root hm
  have hsz : (m.rinode ROOTINO).size = (16 * (files.length + 2) / BSIZE + 1) * BSIZE := by
    rw [hroot, hsize]
  -- the entries end exactly where the missing block starts
  have hend : din.size ≤ 16 * (files.length + 2) / BSIZE * BSIZE := by
    rw [hsize]
    simp only [BSIZE] at hblk ⊢
    omega
  have h0 : (m.rinode ROOTINO).addrs (directSlot _ hdir) = 0 := by
    rw [hroot]
    exact htight _ hdir hend
  refine ⟨hsz, by simp [blockAddr, hdir, h0], fun logged => ?_⟩
  obtain ⟨d, hb, hz, hl⟩ := balloc_image hmap hfree logged
  have hdev : (m.rinode ROOTINO).type ≠ T_DEV := by
    rw [hroot, htype]
    decide
  have hwrap : (m.rinode ROOTINO).size < 2 ^ 32 := by
    rw [hsz]
    simp only [NDIRECT, BSIZE] at hdir ⊢
    omega
  refine ⟨d.disk, ?_⟩
  have hofn : List.ofFn zeroes = List.replicate BSIZE 0 := List.ofFn_const _ _
  rw [readi_hole hdev hdir h0 hsz.ge hwrap hb, hz, hofn, ← hl]

/-- Thirty host files, `a0`, `a1`, ...: with `.` and `..` the root holds 32 entries, one block. -/
def thirtyFiles : List HostFile := (List.range 30).map fun i => ⟨[97, (48 + i).toUInt8], []⟩

theorem mkfs_root_hole_thirty :
    ∃ m, mkfs thirtyFiles = some m ∧ m.freeblock = 60 ∧
      (m.rinode ROOTINO).size = (16 * (thirtyFiles.length + 2) / BSIZE + 1) * BSIZE ∧
      blockAddr m.disk (m.rinode ROOTINO) (16 * (thirtyFiles.length + 2) / BSIZE) = 0 ∧
      ∀ logged, ∃ disk ip,
        readi Mkfs.sb (m.rinode ROOTINO) (16 * (thirtyFiles.length + 2) / BSIZE * BSIZE) BSIZE
            ⟨m.disk, logged⟩ =
          some ((BSIZE : Int), List.replicate BSIZE 0, ip, ⟨disk, logged ++ [Mkfs.sb.bmapstart, 60]⟩) := by
  obtain ⟨m, hm⟩ : ∃ m, mkfs thirtyFiles = some m :=
    Option.isSome_iff_exists.mp (by decide +kernel)
  have hfb : m.freeblock = 60 := by
    have h : (mkfs thirtyFiles).map Mkfs.freeblock = some 60 := by decide +kernel
    rw [hm] at h
    exact Option.some.inj h
  obtain ⟨hs, hb, hr⟩ := mkfs_root_hole hm (by decide) (by decide) (by rw [hfb]; decide)
  refine ⟨m, hm, hfb, hs, hb, fun logged => ?_⟩
  obtain ⟨disk, h⟩ := hr logged
  exact ⟨disk, _, hfb ▸ h⟩

end Xv6
