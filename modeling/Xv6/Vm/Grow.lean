import Xv6.Vm.Uvm

/-!
# `proc.c`: `growproc`

`growproc(n)` grows or shrinks the current process's memory by `n` bytes through `allocuvm` or
`deallocuvm`, and takes a result of `0` from either for a failure. `deallocuvm` returns the new
size, which is `0` when a process shrinks to nothing, after it has freed the pages.

* `growproc`;
* `growproc_shrink_frees_pages` : `sbrk(-4096)` in a process of one page frees the page and
  clears its PTE, then returns `-1` and leaves `sz` at `4096`.
-/

namespace Xv6

/-- Grow current process's memory by `n` bytes: `0` and the new size, or `-1` with `sz` as it was.
`sz + n` is computed in `uint`. -/
def growproc (pgdir sz : UInt32) (n : Int32) : MemM (Int32 × UInt32) := do
  if n > 0 then
    let sz' ← allocuvm pgdir sz (sz + n.toUInt32)
    if sz' = 0 then return (-1, sz)
    return (0, sz')
  else if n < 0 then
    let sz' ← deallocuvm pgdir sz (sz + n.toUInt32)
    if sz' = 0 then return (-1, sz)
    return (0, sz')
  return (0, sz)

/-- A process of one page: its page directory at `0x80200000` (physical `0x200000`) maps
`[0, 4096)` through the page table at physical `0x201000` to the page at physical `0x202000`;
one more page is free, and the kernel ends below them. -/
def onePage : Mem where
  phys pa :=
    if pa = 0x200000 then fun i => if i.val = 0 then 0x201000 ||| PTE_P ||| PTE_W ||| PTE_U else 0
    else if pa = 0x201000 then fun i => if i.val = 0 then 0x202000 ||| PTE_P ||| PTE_W ||| PTE_U else 0
    else fun _ => 0
  freelist := [0x80203000]
  kdata := 0x80108000
  kend := 0x80110000

/-- `sbrk(-sz)` in a process of one page: `deallocuvm` frees the page and clears its PTE, and
returns the new size `0`, which `growproc` takes for a failure: it returns `-1` with `sz` still
`4096`, over an address space with no page left. -/
theorem growproc_shrink_frees_pages :
    pteOf onePage 0x80200000 0 &&& PTE_P ≠ 0 ∧
      (growproc 0x80200000 4096 (-4096) onePage).map
          (fun r => (r.1, pteOf r.2 0x80200000 0 &&& PTE_P, r.2.freelist)) =
        some ((-1, 4096), 0, [0x80202000, 0x80203000]) := by
  decide +kernel

end Xv6
