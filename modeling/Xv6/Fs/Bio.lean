import Xv6.Lib.DList
import Xv6.Lib.Run
import Xv6.Param

/-!
# `bio.c`: the buffer cache

* `Buf` and `Bcache` : `struct buf`, and the `prev`/`next` pointers of the buffers and of
  `bcache.head` (`BPtr`) as two functions, so that `Xv6.Lib.DList` applies;
* `binit`, `bget`, `brelse`, and the flag updates of `bread` (`iderw`), `log_write` and `bwrite`;
* `bioStep` : one call, under `bcache.lock` or with the buffer's sleep-lock held; `waiting`
  counts the processes that `bget` has returned a buffer to and that sleep in `acquiresleep`.

`BioInv`: the buffers lie on one circular list through `bcache.head` (`DList.Seg`), each once;
`refcnt` counts the processes that hold or wait for a buffer; and a buffer that is in use
comes, in the list, before every other buffer with its `(dev, blockno)` (`FirstUsed`), so that
`bget`'s forward scan finds it and no two buffers in use carry one block.
-/

namespace Xv6

/-- `&bcache.head` or `&bcache.buf[i]`. -/
inductive BPtr where
  | head
  | buf (i : Fin NBUF)
  deriving DecidableEq

/-- `struct buf`: its flags `B_VALID` and `B_DIRTY`, its block, whether its sleep-lock is held,
and `refcnt`; its links are `Bcache.next` and `Bcache.prev`, its data `Xv6.Fs.Blocks`' concern. -/
structure Buf where
  valid : Bool
  dirty : Bool
  dev : Nat
  blockno : Nat
  locked : Bool
  refcnt : Nat

/-- `bcache`: the buffers; `next` and `prev` of each buffer and of `head`; the processes
waiting in `acquiresleep` for each buffer. -/
structure Bcache where
  buf : Fin NBUF → Buf
  next : BPtr → BPtr
  prev : BPtr → BPtr
  waiting : Fin NBUF → Nat

namespace Bcache

/-- `p->next = q`. -/
def setNext (c : Bcache) (p q : BPtr) : Bcache := { c with next := Function.update c.next p q }

/-- `p->prev = q`. -/
def setPrev (c : Bcache) (p q : BPtr) : Bcache := { c with prev := Function.update c.prev p q }

/-- A change to the fields of buffer `i`. -/
def setBuf (c : Bcache) (i : Fin NBUF) (f : Buf → Buf) : Bcache :=
  { c with buf := Function.update c.buf i (f (c.buf i)) }

/-- A test of `struct buf` on a pointer: `bcache.head` never matches. -/
def test (c : Bcache) (pred : Buf → Bool) : BPtr → Bool
  | .head => false
  | .buf i => pred (c.buf i)

end Bcache

/-- The zeroed `bcache` before `binit`: every buffer at `(0, 0)` with no flags. -/
def Bcache.zero : Bcache :=
  ⟨fun _ => ⟨false, false, 0, 0, false, 0⟩, fun _ => .head, fun _ => .head, fun _ => 0⟩

/-- The body of `binit`'s loop: link buffer `b` after `head`. -/
def binitLink (c : Bcache) (b : Fin NBUF) : Bcache :=
  let c := c.setNext (.buf b) (c.next .head)
  let c := c.setPrev (.buf b) .head
  let c := c.setPrev (c.next .head) (.buf b)
  c.setNext .head (.buf b)

/-- Create linked list of buffers. -/
def binit (c : Bcache) : Bcache :=
  (List.finRange NBUF).foldl binitLink ((c.setPrev .head .head).setNext .head .head)

/-- Look through buffer cache for block `blockno` on device `dev`; if not found, recycle the
least recently used buffer that has no reference and is not dirty. The buffer's `refcnt` is
incremented; its sleep-lock is taken after `bcache.lock` is released. -/
def bget (dev blockno : Nat) (c : Bcache) : Option (Fin NBUF × Bcache) :=
  -- Is the block already cached?
  match DList.scan c.next .head (c.test fun b => b.dev = dev ∧ b.blockno = blockno) NBUF
      (c.next .head) with
  | some (some (.buf i)) => some (i, c.setBuf i fun b => { b with refcnt := b.refcnt + 1 })
  | some none =>
    -- Not cached; recycle an unused buffer.
    match DList.scan c.prev .head (c.test fun b => b.refcnt = 0 ∧ !b.dirty) NBUF
        (c.prev .head) with
    | some (some (.buf i)) =>
      some (i, c.setBuf i fun b =>
        { b with dev := dev, blockno := blockno, valid := false, dirty := false, refcnt := 1 })
    | _ => none  -- panic("bget: no buffers")
  | _ => none

/-- The relinking in `brelse`: unlink `b` and link it after `head`. -/
def relinkFront (c : Bcache) (b : BPtr) : Bcache :=
  let c := c.setPrev (c.next b) (c.prev b)
  let c := c.setNext (c.prev b) (c.next b)
  let c := c.setNext b (c.next .head)
  let c := c.setPrev b .head
  let c := c.setPrev (c.next .head) b
  c.setNext .head b

/-- Release a locked buffer; with no reference left, move it to the head of the MRU list. -/
def brelse (i : Fin NBUF) (c : Bcache) : Bcache :=
  let c := c.setBuf i fun b => { b with locked := false, refcnt := b.refcnt - 1 }
  if (c.buf i).refcnt = 0 then
    -- no one is waiting for it.
    relinkFront c (.buf i)
  else c

/-- `iderw` on a locked buffer: a dirty buffer is written, one not valid is read; either way
it ends valid and clean. -/
def iderw (b : Buf) : Buf := { b with valid := true, dirty := false }

/-- A call of the buffer cache: `bread` up to `acquiresleep`, the rest of `bread` once the
sleep-lock is held, `brelse`, `log_write` (which marks the buffer `B_DIRTY`), `bwrite`. -/
inductive BioEvent where
  | bread (dev blockno : Nat)
  | acquire (i : Fin NBUF)
  | brelse (i : Fin NBUF)
  | logWrite (i : Fin NBUF)
  | bwrite (i : Fin NBUF)

def bioStep (c : Bcache) : BioEvent → Option Bcache
  | .bread dev blockno => (bget dev blockno c).map fun (i, c) =>
    { c with waiting := Function.update c.waiting i (c.waiting i + 1) }
  | .acquire i =>
    if 0 < c.waiting i ∧ !(c.buf i).locked then
      let c := { c with waiting := Function.update c.waiting i (c.waiting i - 1) }
      some (c.setBuf i fun b => if b.valid then { b with locked := true }
        else iderw { b with locked := true })
    else none
  | .brelse i => if (c.buf i).locked then some (brelse i c) else none  -- panic("brelse")
  | .logWrite i => if (c.buf i).locked then some (c.setBuf i fun b => { b with dirty := true }) else none
  | .bwrite i => if (c.buf i).locked then some (c.setBuf i iderw) else none  -- panic("bwrite")

/-! ## Links -/

namespace Bcache

@[simp] theorem setNext_next (c : Bcache) (p q : BPtr) :
    (c.setNext p q).next = Function.update c.next p q := rfl

@[simp] theorem setNext_prev (c : Bcache) (p q : BPtr) : (c.setNext p q).prev = c.prev := rfl

@[simp] theorem setNext_buf (c : Bcache) (p q : BPtr) : (c.setNext p q).buf = c.buf := rfl

@[simp] theorem setNext_waiting (c : Bcache) (p q : BPtr) :
    (c.setNext p q).waiting = c.waiting := rfl

@[simp] theorem setPrev_prev (c : Bcache) (p q : BPtr) :
    (c.setPrev p q).prev = Function.update c.prev p q := rfl

@[simp] theorem setPrev_next (c : Bcache) (p q : BPtr) : (c.setPrev p q).next = c.next := rfl

@[simp] theorem setPrev_buf (c : Bcache) (p q : BPtr) : (c.setPrev p q).buf = c.buf := rfl

@[simp] theorem setPrev_waiting (c : Bcache) (p q : BPtr) :
    (c.setPrev p q).waiting = c.waiting := rfl

@[simp] theorem setBuf_next (c : Bcache) (i : Fin NBUF) (f : Buf → Buf) :
    (c.setBuf i f).next = c.next := rfl

@[simp] theorem setBuf_prev (c : Bcache) (i : Fin NBUF) (f : Buf → Buf) :
    (c.setBuf i f).prev = c.prev := rfl

@[simp] theorem setBuf_waiting (c : Bcache) (i : Fin NBUF) (f : Buf → Buf) :
    (c.setBuf i f).waiting = c.waiting := rfl

theorem setBuf_buf (c : Bcache) (i j : Fin NBUF) (f : Buf → Buf) :
    (c.setBuf i f).buf j = if j = i then f (c.buf i) else c.buf j := by
  simp [setBuf, Function.update_apply]

end Bcache

/-- `binit`'s loop body is `DList.pushFront` on the links. -/
theorem binitLink_links (c : Bcache) (b : Fin NBUF) :
    (binitLink c b).next = (DList.pushFront c.next c.prev .head (.buf b)).1 ∧
      (binitLink c b).prev = (DList.pushFront c.next c.prev .head (.buf b)).2 :=
  ⟨rfl, rfl⟩

theorem nodup_head_buf {l : List (Fin NBUF)} (hnd : l.Nodup) :
    (BPtr.head :: l.map BPtr.buf).Nodup :=
  List.nodup_cons.mpr ⟨by simp, hnd.map fun _ _ h => BPtr.buf.inj h⟩

/-- `binit`'s loop, from a list `l`: each buffer of `bs` in turn goes to the front. -/
theorem foldl_binitLink {bs l : List (Fin NBUF)} {c : Bcache}
    (hs : DList.Seg c.next c.prev .head (l.map .buf) .head) (hnd : (bs ++ l).Nodup) :
    DList.Seg (bs.foldl binitLink c).next (bs.foldl binitLink c).prev .head
      ((bs.reverse ++ l).map .buf) .head := by
  induction bs generalizing c l with
  | nil => simpa using hs
  | cons b bs ih =>
    rw [List.foldl_cons, List.reverse_cons, List.append_assoc, List.singleton_append]
    apply ih _ (List.nodup_middle.mpr hnd)
    rw [(binitLink_links c b).1, (binitLink_links c b).2, List.map_cons]
    simp only [List.cons_append, List.nodup_cons, List.mem_append, not_or] at hnd
    have hinj : Function.Injective BPtr.buf := fun _ _ h => BPtr.buf.inj h
    have hl : l.Nodup := (List.nodup_append.mp hnd.2).2.1
    exact hs.pushFront (List.nodup_cons.mpr ⟨by simp, hl.map hinj⟩) (by simpa using hnd.1.2)
      BPtr.noConfusion

@[simp] theorem binit_buf (c : Bcache) : (binit c).buf = c.buf := by
  suffices h : ∀ (bs : List (Fin NBUF)) (c : Bcache), (bs.foldl binitLink c).buf = c.buf by
    exact h _ _
  intro bs
  induction bs with
  | nil => intro c; rfl
  | cons b bs ih => intro c; rw [List.foldl_cons, ih]; rfl

@[simp] theorem binit_waiting (c : Bcache) : (binit c).waiting = c.waiting := by
  suffices h : ∀ (bs : List (Fin NBUF)) (c : Bcache), (bs.foldl binitLink c).waiting = c.waiting by
    exact h _ _
  intro bs
  induction bs with
  | nil => intro c; rfl
  | cons b bs ih => intro c; rw [List.foldl_cons, ih]; rfl

/-- `binit` links every buffer, the last one first. -/
theorem binit_linked (c : Bcache) :
    DList.Seg (binit c).next (binit c).prev .head ((List.finRange NBUF).reverse.map .buf) .head := by
  let c₀ := (c.setPrev .head .head).setNext .head .head
  have h₀ : DList.Seg c₀.next c₀.prev .head (([] : List (Fin NBUF)).map .buf) .head :=
    ⟨by simp [c₀], by simp [c₀]⟩
  have h := foldl_binitLink h₀
    (show (List.finRange NBUF ++ []).Nodup by simpa using List.nodup_finRange NBUF)
  simpa [binit] using h

/-! ## `bget` on a linked cache -/

section Scan

variable {c : Bcache} {l : List (Fin NBUF)}

/-- The forward scan from `head.next` finds the first buffer of the list that passes. -/
theorem scan_next (hs : DList.Seg c.next c.prev .head (l.map .buf) .head) (hl : l.length ≤ NBUF)
    (pred : Buf → Bool) :
    DList.scan c.next .head (c.test pred) NBUF (c.next .head) =
      some ((l.find? fun i => pred (c.buf i)).map .buf) := by
  rw [hs.scan (c.test pred) (by simp) (by simpa using hl), List.find?_map]
  rfl

/-- The backward scan from `head.prev` finds the last buffer of the list that passes. -/
theorem scan_prev (hs : DList.Seg c.next c.prev .head (l.map .buf) .head) (hl : l.length ≤ NBUF)
    (pred : Buf → Bool) :
    DList.scan c.prev .head (c.test pred) NBUF (c.prev .head) =
      some ((l.reverse.find? fun i => pred (c.buf i)).map .buf) := by
  rw [hs.reverse.scan (c.test pred) (by simp) (by simpa using hl), ← List.map_reverse,
    List.find?_map]
  rfl

/-- `bget` on a linked cache: the first buffer of the block, or else the last one with no
reference that is not dirty, recycled. -/
theorem bget_eq (hs : DList.Seg c.next c.prev .head (l.map .buf) .head) (hl : l.length ≤ NBUF)
    (dev blockno : Nat) :
    bget dev blockno c =
      match l.find? (fun i => (c.buf i).dev = dev ∧ (c.buf i).blockno = blockno) with
      | some i => some (i, c.setBuf i fun b => { b with refcnt := b.refcnt + 1 })
      | none =>
        match l.reverse.find? (fun i => (c.buf i).refcnt = 0 ∧ !(c.buf i).dirty) with
        | some i => some (i, c.setBuf i fun b =>
            { b with dev := dev, blockno := blockno, valid := false, dirty := false, refcnt := 1 })
        | none => none := by
  unfold bget
  rw [scan_next hs hl]
  rcases (l.find? fun i => (c.buf i).dev = dev ∧ (c.buf i).blockno = blockno) with _ | i
  · rw [scan_prev hs hl]
    rcases (l.reverse.find? fun i => (c.buf i).refcnt = 0 ∧ !(c.buf i).dirty) with _ | j <;> rfl
  · rfl

end Scan

/-- The relinking of `brelse` is `DList.moveFront` on the links. -/
theorem relinkFront_links (c : Bcache) (b : BPtr) :
    (relinkFront c b).next = (DList.moveFront c.next c.prev .head b).1 ∧
      (relinkFront c b).prev = (DList.moveFront c.next c.prev .head b).2 :=
  ⟨rfl, rfl⟩

@[simp] theorem relinkFront_buf (c : Bcache) (b : BPtr) : (relinkFront c b).buf = c.buf := rfl

@[simp] theorem relinkFront_waiting (c : Bcache) (b : BPtr) :
    (relinkFront c b).waiting = c.waiting := rfl

/-! ## The invariant -/

/-- A buffer in use: referenced, or holding the data of its block. -/
def Buf.used (b : Buf) : Prop := 0 < b.refcnt ∨ b.valid = true ∨ b.dirty = true

/-- Two buffers for one block. -/
def Buf.same (b b' : Buf) : Prop := b.dev = b'.dev ∧ b.blockno = b'.blockno

theorem Buf.same.symm {b b' : Buf} (h : b.same b') : b'.same b := ⟨h.1.symm, h.2.symm⟩

/-- A change to buffer `j` that keeps its block keeps the block of every buffer. -/
theorem Bcache.setBuf_same (c : Bcache) (i j : Fin NBUF) {f : Buf → Buf}
    (hf : (f (c.buf j)).same (c.buf j)) : ((c.setBuf j f).buf i).same (c.buf i) := by
  rw [setBuf_buf]
  split
  · subst i
    exact hf
  · exact ⟨rfl, rfl⟩

/-- Buffer `i` comes before every other buffer of its block in the list `l`. -/
def FirstOf (c : Bcache) (l : List (Fin NBUF)) (i : Fin NBUF) : Prop :=
  ∀ j, j ≠ i → (c.buf j).same (c.buf i) → l.idxOf i < l.idxOf j

/-- A buffer in use comes before every other buffer of its block in the list `l`. -/
def FirstUsed (c : Bcache) (l : List (Fin NBUF)) : Prop :=
  ∀ i j, i ≠ j → (c.buf i).same (c.buf j) → (c.buf j).used → l.idxOf j < l.idxOf i

/-- The cache is the circular list `l` through `head`, each buffer once; `refcnt` counts the
holder of the sleep-lock and the processes waiting for it; a buffer in use is the first of its
block. -/
structure BioInv (c : Bcache) (l : List (Fin NBUF)) : Prop where
  nodup : l.Nodup
  complete : ∀ i, i ∈ l
  linked : DList.Seg c.next c.prev .head (l.map .buf) .head
  refcnt : ∀ i, (c.buf i).refcnt = c.waiting i + if (c.buf i).locked then 1 else 0
  first : FirstUsed c l

theorem BioInv.length_le {c : Bcache} {l : List (Fin NBUF)} (h : BioInv c l) :
    l.length ≤ NBUF := by
  simpa using h.nodup.length_le_card

theorem bioInv_binit :
    BioInv (binit Bcache.zero) (List.finRange NBUF).reverse where
  nodup := List.nodup_reverse.mpr (List.nodup_finRange NBUF)
  complete i := by simp
  linked := binit_linked _
  refcnt i := by simp [Bcache.zero]
  first i j _ _ hu := by simp [Bcache.zero, Buf.used] at hu

/-- Changing the fields of a buffer that is the first of its block, and keeping its block,
keeps every buffer in use first. -/
theorem FirstUsed.setBuf {c : Bcache} {l : List (Fin NBUF)} {i : Fin NBUF} {f : Buf → Buf}
    (h : FirstUsed c l) (hi : FirstOf c l i)
    (hf : (f (c.buf i)).same (c.buf i)) : FirstUsed (c.setBuf i f) l := by
  intro i' j hij hs hu
  simp only [Bcache.setBuf_buf] at hs hu
  by_cases hj : j = i
  · subst hj
    have hi' : i' ≠ j := hij
    simp only [hi', if_false, if_true] at hs
    exact hi i' hi' ⟨hs.1.trans hf.1, hs.2.trans hf.2⟩
  · simp only [hj, if_false] at hs hu
    by_cases hi' : i' = i
    · subst hi'
      simp only [if_true] at hs
      exact h i' j hij ⟨hf.1.symm.trans hs.1, hf.2.symm.trans hs.2⟩ hu
    · simp only [hi', if_false] at hs
      exact h i' j hij hs hu

/-- A buffer given a block that no buffer carries is the only one of its block. -/
theorem FirstUsed.recycle {c : Bcache} {l : List (Fin NBUF)} {i : Fin NBUF} {f : Buf → Buf}
    {dev blockno : Nat} (h : FirstUsed c l)
    (hnone : ∀ j, ¬ ((c.buf j).dev = dev ∧ (c.buf j).blockno = blockno))
    (hf : (f (c.buf i)).dev = dev ∧ (f (c.buf i)).blockno = blockno) :
    FirstUsed (c.setBuf i f) l := by
  intro i' j hij hs hu
  simp only [Bcache.setBuf_buf] at hs hu
  by_cases hj : j = i
  · subst hj
    have hi' : i' ≠ j := hij
    simp only [hi', if_false, if_true] at hs
    exact absurd ⟨hs.1.trans hf.1, hs.2.trans hf.2⟩ (hnone i')
  · simp only [hj, if_false] at hs hu
    by_cases hi' : i' = i
    · subst hi'
      simp only [if_true] at hs
      exact absurd ⟨hs.1.symm.trans hf.1, hs.2.symm.trans hf.2⟩ (hnone j)
    · simp only [hi', if_false] at hs
      exact h i' j hij hs hu

/-! ## One call keeps the invariant -/

section Step

variable {c c' : Bcache} {l : List (Fin NBUF)}

theorem BioInv.used_of_locked (h : BioInv c l) {i : Fin NBUF} (hi : (c.buf i).locked = true) :
    (c.buf i).used :=
  Or.inl (by rw [h.refcnt i, hi]; simp)

/-- A buffer in use comes before the other buffers of its block. -/
theorem BioInv.first_of_used (h : BioInv c l) {i : Fin NBUF} (hu : (c.buf i).used) :
    FirstOf c l i :=
  fun j hj hs => h.first j i hj hs hu

/-- A change to buffer `i` that keeps the buffers in use first and makes `refcnt` count the new
waiting processes keeps the invariant. -/
theorem BioInv.update (h : BioInv c l) {i : Fin NBUF} {f : Buf → Buf} {w : Fin NBUF → Nat}
    (hfirst : FirstUsed (c.setBuf i f) l) (hw : ∀ j, j ≠ i → w j = c.waiting j)
    (hr : (f (c.buf i)).refcnt = w i + if (f (c.buf i)).locked then 1 else 0) :
    BioInv { c.setBuf i f with waiting := w } l where
  nodup := h.nodup
  complete := h.complete
  linked := by simpa using h.linked
  refcnt j := by
    by_cases hj : j = i
    · subst hj
      simpa [Bcache.setBuf_buf] using hr
    · simpa [Bcache.setBuf_buf, hj, hw j hj] using h.refcnt j
  first := hfirst

/-- The same for a buffer that is the first of its block and keeps it. -/
theorem BioInv.setBuf (h : BioInv c l) {i : Fin NBUF} {f : Buf → Buf} {w : Fin NBUF → Nat}
    (hi : FirstOf c l i)
    (hf : (f (c.buf i)).same (c.buf i)) (hw : ∀ j, j ≠ i → w j = c.waiting j)
    (hr : (f (c.buf i)).refcnt = w i + if (f (c.buf i)).locked then 1 else 0) :
    BioInv { c.setBuf i f with waiting := w } l :=
  h.update (h.first.setBuf hi hf) hw hr

/-- A change to the flags of a locked buffer keeps the invariant. -/
theorem BioInv.setFlags (h : BioInv c l) {i : Fin NBUF} {f : Buf → Buf}
    (hi : (c.buf i).locked = true) (hf : (f (c.buf i)).same (c.buf i))
    (hr : (f (c.buf i)).refcnt = (c.buf i).refcnt) (hl : (f (c.buf i)).locked = true) :
    BioInv (c.setBuf i f) l :=
  h.setBuf (w := c.waiting) (h.first_of_used (h.used_of_locked hi)) hf (fun _ _ => rfl)
    (by rw [hr, hl, h.refcnt i, hi])

theorem Bcache.setBuf_with_waiting (c : Bcache) (i : Fin NBUF) (f : Buf → Buf)
    (w : Fin NBUF → Nat) : ({ c with waiting := w }).setBuf i f = { c.setBuf i f with waiting := w } :=
  rfl

theorem bioInv_bread {dev blockno : Nat} (h : BioInv c l)
    (hs : bioStep c (.bread dev blockno) = some c') : BioInv c' l := by
  rw [bioStep, bget_eq h.linked h.length_le] at hs
  split at hs
  · -- a hit: `i` is the first buffer of the block
    rename_i i hfind
    obtain ⟨hdev, hbn⟩ : (c.buf i).dev = dev ∧ (c.buf i).blockno = blockno := by
      simpa using List.find?_some hfind
    simp only [Option.map_some, Option.some.injEq] at hs
    subst hs
    refine h.setBuf (fun j hj hsame => ?_) ⟨rfl, rfl⟩ (fun j hj => Function.update_of_ne hj _ _) ?_
    · refine DList.idxOf_find_lt h.nodup hfind (h.complete j) hj ?_
      simpa using And.intro (hsame.1.trans hdev) (hsame.2.trans hbn)
    · simp [h.refcnt i]
      omega
  · split at hs
    · -- a recycled buffer: no buffer had the block, and `i` had no reference
      rename_i hnone _ i hfind
      obtain ⟨hr, -⟩ : (c.buf i).refcnt = 0 ∧ (c.buf i).dirty = false := by
        simpa using List.find?_some hfind
      have hw : c.waiting i = 0 ∧ (c.buf i).locked = false := by
        have := h.refcnt i
        split at this <;> simp_all
      simp only [Option.map_some, Option.some.injEq] at hs
      subst hs
      refine h.update (h.first.recycle (fun j hj => ?_) ⟨rfl, rfl⟩)
        (fun j hj => Function.update_of_ne hj _ _) (by simp [hw])
      exact (List.find?_eq_none.mp hnone j (h.complete j)) (by simpa using hj)
    · simp at hs

theorem bioInv_acquire {i : Fin NBUF} (h : BioInv c l) (hs : bioStep c (.acquire i) = some c') :
    BioInv c' l := by
  simp only [bioStep] at hs
  split at hs
  · rename_i hw
    simp only [Option.some.injEq] at hs
    subst hs
    obtain ⟨hpos, hlock⟩ : 0 < c.waiting i ∧ (c.buf i).locked = false := by simpa using hw
    have hu : (c.buf i).used := Or.inl (by rw [h.refcnt i]; omega)
    rw [Bcache.setBuf_with_waiting]
    refine h.setBuf (h.first_of_used hu) ?_ (fun j hj => Function.update_of_ne hj _ _) ?_
    · cases (c.buf i).valid <;> exact ⟨rfl, rfl⟩
    · rw [h.refcnt i, hlock]
      cases (c.buf i).valid <;> simp [iderw] <;> omega
  · simp at hs

theorem bioInv_logWrite {i : Fin NBUF} (h : BioInv c l) (hs : bioStep c (.logWrite i) = some c') :
    BioInv c' l := by
  simp only [bioStep] at hs
  split at hs
  · rename_i hlock
    simp only [Option.some.injEq] at hs
    subst hs
    refine h.setFlags hlock ?_ ?_ ?_
    · exact ⟨rfl, rfl⟩
    · rfl
    · exact hlock
  · simp at hs

theorem bioInv_bwrite {i : Fin NBUF} (h : BioInv c l) (hs : bioStep c (.bwrite i) = some c') :
    BioInv c' l := by
  simp only [bioStep] at hs
  split at hs
  · rename_i hlock
    simp only [Option.some.injEq] at hs
    subst hs
    refine h.setFlags hlock ?_ ?_ ?_
    · exact ⟨rfl, rfl⟩
    · rfl
    · exact hlock
  · simp at hs

theorem FirstOf.setBuf {i : Fin NBUF} {f : Buf → Buf} (hi : FirstOf c l i)
    (hf : (f (c.buf i)).same (c.buf i)) : FirstOf (c.setBuf i f) l i := by
  intro j hj hs
  simp only [Bcache.setBuf_buf, hj, if_false, if_true] at hs
  exact hi j hj ⟨hs.1.trans hf.1, hs.2.trans hf.2⟩

/-- With the list `l₁ ++ i :: l₂`, moving `i`, the first of its block, to the front keeps the
invariant, on the list `i :: (l₁ ++ l₂)`. -/
theorem BioInv.relinkFront {i : Fin NBUF} {l₁ l₂ : List (Fin NBUF)} (h : BioInv c l)
    (hl : l = l₁ ++ i :: l₂) (hi : FirstOf c l i) :
    BioInv (relinkFront c (.buf i)) (i :: (l₁ ++ l₂)) where
  nodup := List.perm_middle.nodup_iff.mp (hl ▸ h.nodup)
  complete j := List.perm_middle.mem_iff.mp (hl ▸ h.complete j)
  linked := by
    have hs : DList.Seg c.next c.prev .head (l₁.map .buf ++ .buf i :: l₂.map .buf) .head := by
      simpa [hl] using h.linked
    have hnd : (BPtr.head :: (l₁.map .buf ++ .buf i :: l₂.map .buf)).Nodup := by
      simpa [hl] using nodup_head_buf h.nodup
    rw [(relinkFront_links c _).1, (relinkFront_links c _).2]
    simpa using hs.moveFront hnd
  refcnt := h.refcnt
  first := by
    intro i' j hij hs hu
    simp only [relinkFront_buf] at hs hu
    by_cases hj : j = i
    · -- the moved buffer is now at the front
      subst hj
      rw [List.idxOf_cons_self, List.idxOf_cons_ne _ (Ne.symm hij)]
      exact Nat.succ_pos _
    · by_cases hi' : i' = i
      · -- `i` was already before the buffers of its block
        subst hi'
        have := h.first i' j hij hs hu
        have := hi j hj hs.symm
        omega
      · rw [DList.idxOf_moveFront_lt_iff hj hi', ← hl]
        exact h.first i' j hij hs hu

/-- `brelse` of a locked buffer: with references left the list stays; with none, the buffer
moves to the front. -/
theorem bioInv_brelse {i : Fin NBUF} (h : BioInv c l) (hs : bioStep c (.brelse i) = some c') :
    ∃ l', BioInv c' l' := by
  simp only [bioStep] at hs
  split at hs
  · rename_i hlock
    simp only [Option.some.injEq] at hs
    subst hs
    have hr : (c.buf i).refcnt = c.waiting i + 1 := by simpa [hlock] using h.refcnt i
    let f : Buf → Buf := fun b => { b with locked := false, refcnt := b.refcnt - 1 }
    have hf : (f (c.buf i)).same (c.buf i) := ⟨rfl, rfl⟩
    have hi := h.first_of_used (h.used_of_locked hlock)
    have hc : BioInv (c.setBuf i f) l :=
      h.setBuf (w := c.waiting) hi hf (fun _ _ => rfl) (by simp [f, hr])
    dsimp only [brelse]
    split
    · obtain ⟨l₁, l₂, hl⟩ := List.append_of_mem (h.complete i)
      exact ⟨_, hc.relinkFront hl (hi.setBuf hf)⟩
    · exact ⟨l, hc⟩
  · simp at hs

/-- Every call keeps the invariant. -/
theorem bioInv_step (h : BioInv c l) (e : BioEvent) (hs : bioStep c e = some c') :
    ∃ l', BioInv c' l' := by
  cases e with
  | bread dev blockno => exact ⟨l, bioInv_bread h hs⟩
  | acquire i => exact ⟨l, bioInv_acquire h hs⟩
  | brelse i => exact bioInv_brelse h hs
  | logWrite i => exact ⟨l, bioInv_logWrite h hs⟩
  | bwrite i => exact ⟨l, bioInv_bwrite h hs⟩

end Step

/-! ## Along every run -/

section Run

variable {c : Bcache} {l : List (Fin NBUF)}

theorem bioInv_run {es : List BioEvent} (hrun : Run.run bioStep (binit Bcache.zero) es = some c) :
    ∃ l, BioInv c l :=
  Run.run_inv (fun c => ∃ l, BioInv c l) (fun _ e _ ⟨_, h⟩ hs => bioInv_step h e hs) es _ _
    ⟨_, bioInv_binit⟩ hrun

/-- `next` and `prev` are inverse on `head` and every buffer. -/
theorem BioInv.inverse (h : BioInv c l) (p : BPtr) :
    c.prev (c.next p) = p ∧ c.next (c.prev p) = p := by
  have hp : p ∈ BPtr.head :: l.map .buf := by
    cases p with
    | head => exact List.mem_cons_self
    | buf i => simpa using h.complete i
  refine ⟨h.linked.prev_next p hp, h.linked.next_prev p ?_⟩
  simpa [or_comm] using hp

/-- No two buffers in use carry one block. -/
theorem BioInv.not_same (h : BioInv c l) {i j : Fin NBUF} (hij : i ≠ j) (hi : (c.buf i).used)
    (hj : (c.buf j).used) : ¬ (c.buf i).same (c.buf j) := by
  intro hs
  have := h.first i j hij hs hj
  have := h.first j i (Ne.symm hij) hs.symm hi
  omega

/-- `bget` of the block of a buffer in use returns that buffer. -/
theorem BioInv.bget_used (h : BioInv c l) {i : Fin NBUF} (hu : (c.buf i).used) :
    ∃ c', bget (c.buf i).dev (c.buf i).blockno c = some (i, c') := by
  rw [bget_eq h.linked h.length_le]
  let pred := fun j => decide ((c.buf j).dev = (c.buf i).dev ∧ (c.buf j).blockno = (c.buf i).blockno)
  have hp : pred i = true := by simp [pred]
  obtain ⟨a, ha⟩ := Option.isSome_iff_exists.mp (List.find?_isSome.mpr ⟨i, h.complete i, hp⟩)
  have hai : a = i := by
    by_contra hne
    have hs : (c.buf a).same (c.buf i) := by simpa [pred, Buf.same] using List.find?_some ha
    have h₁ := DList.idxOf_find_lt h.nodup ha (h.complete i) (Ne.symm hne) hp
    have h₂ := h.first_of_used hu a hne hs
    omega
  subst hai
  simp only [pred] at ha
  rw [ha]
  exact ⟨_, rfl⟩

theorem brelse_buf (i : Fin NBUF) (c : Bcache) :
    (brelse i c).buf = (c.setBuf i fun b => { b with locked := false, refcnt := b.refcnt - 1 }).buf := by
  dsimp only [brelse]
  split <;> rfl

/-- A call moves a buffer to another block only by recycling it, with no reference and not
dirty. -/
theorem BioInv.recycled (h : BioInv c l) {c' : Bcache} {e : BioEvent} {i : Fin NBUF}
    (hs : bioStep c e = some c') (hne : ¬ (c'.buf i).same (c.buf i)) :
    (c.buf i).refcnt = 0 ∧ (c.buf i).dirty = false := by
  cases e with
  | bread dev blockno =>
    rw [bioStep, bget_eq h.linked h.length_le] at hs
    split at hs
    · simp only [Option.map_some, Option.some.injEq] at hs
      subst hs
      refine absurd ?_ hne
      simp only [Bcache.setBuf_buf]
      split
      · rename_i hij
        subst hij
        exact ⟨rfl, rfl⟩
      · exact ⟨rfl, rfl⟩
    · split at hs
      · rename_i j hfind
        simp only [Option.map_some, Option.some.injEq] at hs
        subst hs
        by_cases hij : i = j
        · subst hij
          simpa using List.find?_some hfind
        · refine absurd ?_ hne
          simp only [Bcache.setBuf_buf, hij, if_false]
          exact ⟨rfl, rfl⟩
      · simp at hs
  | acquire j =>
    simp only [bioStep] at hs
    split at hs
    · simp only [Option.some.injEq] at hs
      subst hs
      refine absurd (Bcache.setBuf_same _ i j (by cases (c.buf j).valid <;> exact ⟨rfl, rfl⟩)) hne
    · simp at hs
  | brelse j =>
    simp only [bioStep] at hs
    split at hs
    · simp only [Option.some.injEq] at hs
      subst hs
      refine absurd ?_ hne
      rw [brelse_buf]
      exact Bcache.setBuf_same c i j ⟨rfl, rfl⟩
    · simp at hs
  | logWrite j =>
    simp only [bioStep] at hs
    split at hs
    · simp only [Option.some.injEq] at hs
      subst hs
      exact absurd (Bcache.setBuf_same c i j (by exact ⟨rfl, rfl⟩)) hne
    · simp at hs
  | bwrite j =>
    simp only [bioStep] at hs
    split at hs
    · simp only [Option.some.injEq] at hs
      subst hs
      exact absurd (Bcache.setBuf_same c i j (by exact ⟨rfl, rfl⟩)) hne
    · simp at hs

end Run

/-- Along every interleaving of the calls from `binit`: the cache is one circular list through
`head` holding each buffer once, with `next` and `prev` inverse; no two buffers in use carry one
block; `bget` of the block of a buffer in use returns that buffer; and a call moves a buffer to
another block only when it has no reference and is not dirty. -/
theorem bcache_list_unique {es : List BioEvent} {c : Bcache}
    (hrun : Run.run bioStep (binit Bcache.zero) es = some c) :
    (∃ l : List (Fin NBUF), l.Nodup ∧ (∀ i, i ∈ l) ∧
        DList.Seg c.next c.prev .head (l.map .buf) .head) ∧
      (∀ p, c.prev (c.next p) = p ∧ c.next (c.prev p) = p) ∧
      (∀ i j, i ≠ j → (c.buf i).used → (c.buf j).used → ¬ (c.buf i).same (c.buf j)) ∧
      (∀ i, (c.buf i).used → ∃ c', bget (c.buf i).dev (c.buf i).blockno c = some (i, c')) ∧
      (∀ e c' i, bioStep c e = some c' → ¬ (c'.buf i).same (c.buf i) →
        (c.buf i).refcnt = 0 ∧ (c.buf i).dirty = false) := by
  obtain ⟨l, h⟩ := bioInv_run hrun
  exact ⟨⟨l, h.nodup, h.complete, h.linked⟩, h.inverse, fun _ _ hij hi hj => h.not_same hij hi hj,
    fun _ hu => h.bget_used hu, fun _ _ _ hs hne => h.recycled hs hne⟩

/-- A process reads block 7 of device 1, logs a write to it and releases it. -/
def loggedRun : List BioEvent :=
  [.bread 1 7, .acquire ⟨0, by decide⟩, .logWrite ⟨0, by decide⟩, .brelse ⟨0, by decide⟩]

/-- After `loggedRun`, buffer 0 holds block 7, dirty and unreferenced, and no call moves it to
another block. -/
theorem loggedRun_kept :
    ∃ c, Run.run bioStep (binit Bcache.zero) loggedRun = some c ∧
      (c.buf ⟨0, by decide⟩).dev = 1 ∧ (c.buf ⟨0, by decide⟩).blockno = 7 ∧
      (c.buf ⟨0, by decide⟩).refcnt = 0 ∧ (c.buf ⟨0, by decide⟩).dirty = true ∧
      ∀ e c', bioStep c e = some c' → (c'.buf ⟨0, by decide⟩).same (c.buf ⟨0, by decide⟩) := by
  obtain ⟨c, hc, hp⟩ := @Run.exists_of_map_eq_some_true _ _ bioStep (binit Bcache.zero) loggedRun
    (fun c => (c.buf ⟨0, by decide⟩).dev == 1 && (c.buf ⟨0, by decide⟩).blockno == 7 &&
      (c.buf ⟨0, by decide⟩).refcnt == 0 && (c.buf ⟨0, by decide⟩).dirty) (by decide +kernel)
  simp only [Bool.and_eq_true, beq_iff_eq] at hp
  obtain ⟨⟨⟨hdev, hbn⟩, hr⟩, hdirty⟩ := hp
  refine ⟨c, hc, hdev, hbn, hr, hdirty, fun e c' hs => ?_⟩
  by_contra hne
  have := ((bcache_list_unique hc).2.2.2.2 e c' _ hs hne).2
  rw [hdirty] at this
  exact Bool.noConfusion this

end Xv6
