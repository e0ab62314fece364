import Mathlib.Data.UInt
import Mathlib.Logic.Function.Basic

/-!
# `umalloc.c`: the Kernighan–Ritchie allocator of the user library

The headers live in memory at their own addresses (bytes), `freep` and the static `base` are
addresses too, and `sbrk` moves the break of one contiguous heap or fails with `-1`. The two
loops over the circular free list (`free`'s search and `malloc`'s scan) run for at most `fuel`
turns, `none` when it runs out.

* `Header`, `Umem`, `sbrk`, `free`, `morecore`, `malloc`;
* `nunits_eq_one_of_wrap` : for the seven largest `uint` requests `nbytes + sizeof(Header) - 1`
  wraps and `malloc` asks for one unit, the header alone;
* `malloc_wraps_past_break` : `malloc(0xffffffff)` in a fresh process returns the address of the
  break itself, a block with no usable byte in the memory `sbrk` gave.
-/

namespace Xv6

/-- `union header`: the next block on the free list, and the block's size in units of
`sizeof(Header)`. -/
structure Header where
  ptr : Nat
  size : UInt32

/-- `sizeof(Header)` on x86: a pointer and a `uint` (`Align` is a `long`, 4 bytes). -/
def HDR : Nat := 8

/-- A process's heap as `umalloc.c` sees it: the header at each address, `freep` (`0` for
`NULL`), the address of the static `base`, and the program break. -/
structure Umem where
  hdr : Nat → Header
  freep : Nat
  base : Nat
  brk : Nat

namespace Umem

def setPtr (m : Umem) (a ptr : Nat) : Umem :=
  { m with hdr := Function.update m.hdr a { m.hdr a with ptr := ptr } }

def setSize (m : Umem) (a : Nat) (size : UInt32) : Umem :=
  { m with hdr := Function.update m.hdr a { m.hdr a with size := size } }

end Umem

/-- `sbrk(n)`: the old break, the heap grown (or shrunk) by `n`; `none` is `-1`, the kernel
refusing (`ok` false) or a break below zero. -/
def sbrk (ok : Bool) (n : Int32) (m : Umem) : Option (Nat × Umem) :=
  if ok ∧ 0 ≤ (m.brk : Int) + n.toInt then some (m.brk, { m with brk := ((m.brk : Int) + n.toInt).toNat })
  else none

/-- The search loop of `free` from `p`: the free block after which the block `bp` goes, where
the list passes over `bp` or wraps around. -/
def freeSearch (m : Umem) (bp : Nat) : Nat → Nat → Option Nat
  | 0, _ => none
  | fuel + 1, p =>
    if bp > p ∧ bp < (m.hdr p).ptr then some p
    else if p ≥ (m.hdr p).ptr ∧ (bp > p ∨ bp < (m.hdr p).ptr) then some p
    else freeSearch m bp fuel (m.hdr p).ptr

/-- `free(ap)`: put the block back after `p`, joined to the next block and to `p` where they
touch it. -/
def free (fuel : Nat) (ap : Nat) (m : Umem) : Option Umem := do
  let bp := ap - HDR
  let p ← freeSearch m bp fuel m.freep
  let m :=
    if bp + HDR * (m.hdr bp).size.toNat = (m.hdr p).ptr then
      let m := m.setSize bp ((m.hdr bp).size + (m.hdr (m.hdr p).ptr).size)
      m.setPtr bp (m.hdr (m.hdr p).ptr).ptr
    else m.setPtr bp (m.hdr p).ptr
  let m :=
    if p + HDR * (m.hdr p).size.toNat = bp then
      let m := m.setSize p ((m.hdr p).size + (m.hdr bp).size)
      m.setPtr p (m.hdr bp).ptr
    else m.setPtr p bp
  pure { m with freep := p }

/-- `morecore(nu)`: at least 4096 units from `sbrk`, given to `free`; `freep`, or `0` when `sbrk`
fails. The byte count `nu * sizeof(Header)` is a `uint` passed as `sbrk`'s `int`. -/
def morecore (fuel : Nat) (ok : Bool) (nu : UInt32) (m : Umem) : Option (Nat × Umem) := do
  let nu := if nu < 4096 then 4096 else nu
  match sbrk ok (nu * 8).toInt32 m with
  | none => pure (0, m)
  | some (p, m) =>
    let m := m.setSize p nu
    let m ← free fuel (p + HDR) m
    pure (m.freep, m)

/-- `nunits`: the request in units, with one more for the header, in `uint`. -/
def nunits (nbytes : UInt32) : UInt32 := (nbytes + 8 - 1) / 8 + 1

/-- The scan of `malloc` from `p`, `prevp` before it: the first block of at least `nunits` units,
cut from its end when larger; `morecore` when the scan comes back to `freep`. -/
def mallocLoop (fuel : Nat) (ok : Bool) (nunits : UInt32) : Nat → Nat → Nat → Umem → Option (Nat × Umem)
  | 0, _, _, _ => none
  | k + 1, prevp, p, m =>
    if (m.hdr p).size ≥ nunits then
      if (m.hdr p).size = nunits then
        let m := m.setPtr prevp (m.hdr p).ptr
        some (p + HDR, { m with freep := prevp })
      else
        let m := m.setSize p ((m.hdr p).size - nunits)
        let p := p + HDR * (m.hdr p).size.toNat
        let m := m.setSize p nunits
        some (p + HDR, { m with freep := prevp })
    else if p = m.freep then
      match morecore fuel ok nunits m with
      | none => none
      | some (0, m) => some (0, m)
      | some (p, m) => mallocLoop fuel ok nunits k p (m.hdr p).ptr m
    else mallocLoop fuel ok nunits k p (m.hdr p).ptr m

/-- `malloc(nbytes)`: the address of the block's first byte after its header, or `0`. The list
starts as `base` alone, of size `0`. -/
def malloc (fuel : Nat) (ok : Bool) (nbytes : UInt32) (m : Umem) : Option (Nat × Umem) :=
  let m :=
    if m.freep = 0 then { (m.setPtr m.base m.base).setSize m.base 0 with freep := m.base } else m
  mallocLoop fuel ok (nunits nbytes) fuel m.freep (m.hdr m.freep).ptr m

/-- For the seven largest requests `nbytes + sizeof(Header) - 1` wraps past `2^32`: `malloc`
asks for one unit, the header alone, whatever was requested. -/
theorem nunits_eq_one_of_wrap (nbytes : UInt32) (h : 0xFFFFFFF9 ≤ nbytes) : nunits nbytes = 1 := by
  unfold nunits
  rw [UInt32.le_iff_toNat_le] at h
  have hn := nbytes.toNat_lt
  have e : nbytes + 8 - 1 = nbytes + 7 := by
    rw [add_sub_assoc]
    rfl
  rw [e]
  apply UInt32.toNat_inj.mp
  simp only [UInt32.toNat_add, UInt32.toNat_div] at *
  simp at *
  omega

/-- A fresh process with its break at `8192` and `base` below it. -/
def freshHeap : Umem where
  hdr _ := ⟨0, 0⟩
  freep := 0
  base := 800
  brk := 8192

/-- `malloc(0xffffffff)` in a fresh process: `morecore` takes 4096 units (32768 bytes) from
`sbrk`, the break moves to `40960`, and `malloc` cuts one unit from the end of the new block and
returns `40960`, the break itself: not one of the requested bytes lies in the memory `sbrk`
gave. -/
theorem malloc_wraps_past_break :
    (malloc 4 true 0xFFFFFFFF freshHeap).map (fun r => (r.1, r.2.brk, (r.2.hdr (r.1 - HDR)).size)) =
      some (40960, 40960, 1) := by
  decide

end Xv6
