import Xv6.Vm.Mmu

/-!
# `vm.c`: page tables and user address spaces

The functions of `vm.c` that build, grow, shrink, copy and free an address space, over `Mem`.
The loops over page-aligned addresses run at most `NPAGES` turns, `none` past it: a loop that
turns more often has wrapped around the 32-bit address space, where the C never ends.

* `walkpgdir`, `mappages` (`mappagesLoop`);
* `deallocuvm` (`deallocLoop`), `allocuvm` (`allocLoop`), `freevm`;
* `kmap`, `setupkvm` (`setupkvmLoop`), `copyuvm` (`copyLoop`).
-/

namespace Xv6

/-- The pages of the 32-bit address space, the most turns a loop of `vm.c` makes before its
address wraps. -/
def NPAGES : Nat := 2 ^ 20

/-- Return the address of the PTE in page table `pgdir` that corresponds to virtual address `va`:
the physical address of the page table and the entry's index, `none` for `0`. If `alloc`, create
the page table page when it is missing. -/
def walkpgdir (pgdir va : UInt32) (alloc : Bool) : MemM (Option (UInt32 × Fin NPTENTRIES)) := do
  let pde := (← get).phys (V2P pgdir) (slot (PDX va))
  if pde &&& PTE_P ≠ 0 then pure (some (PTE_ADDR pde, slot (PTX va)))
  else if !alloc then pure none
  else
    let pgtab ← kalloc
    if pgtab = 0 then pure none
    else
      -- Make sure all those PTE_P bits are zero.
      setPage (V2P pgtab) fun _ => 0
      -- The permissions here are overly generous, but they can be further restricted by the
      -- permissions in the page table entries, if necessary.
      setWord (V2P pgdir) (slot (PDX va)) (V2P pgtab ||| PTE_P ||| PTE_W ||| PTE_U)
      pure (some (V2P pgtab, slot (PTX va)))

/-- The loop of `mappages` from the page `a`, mapped to `pa`, `n` pages before `last`. -/
def mappagesLoop (pgdir perm : UInt32) : Nat → UInt32 → UInt32 → MemM Int32
  | n, a, pa => do
    match ← walkpgdir pgdir a true with
    | none => pure (-1)
    | some (pt, i) =>
      if (← get).phys pt i &&& PTE_P ≠ 0 then failure  -- panic("remap")
      setWord pt i (pa ||| perm ||| PTE_P)
      match n with
      | 0 => pure 0
      | n + 1 => mappagesLoop pgdir perm n (a + PGSIZE) (pa + PGSIZE)

/-- Create PTEs for virtual addresses starting at `va` that refer to physical addresses starting at
`pa`; `va` and `size` might not be page-aligned. The loop stops at `a == last`, which it reaches
after `(last - a) / PGSIZE` pages, both being page-aligned. -/
def mappages (pgdir va size pa perm : UInt32) : MemM Int32 :=
  let a := PGROUNDDOWN va
  let last := PGROUNDDOWN (va + size - 1)
  mappagesLoop pgdir perm ((last - a) / PGSIZE).toNat a pa

/-- The loop of `deallocuvm` from `a`: free the present pages below `oldsz`, skipping to the next
directory entry where there is no page table. -/
def deallocLoop (pgdir oldsz : UInt32) : Nat → UInt32 → MemM Unit
  | 0, _ => failure
  | fuel + 1, a =>
    if a < oldsz then do
      match ← walkpgdir pgdir a false with
      | none =>
        -- `a = PGADDR(PDX(a) + 1, 0, 0) - PGSIZE`, then `a += PGSIZE`
        deallocLoop pgdir oldsz fuel (PGADDR (PDX a + 1) 0 0 - PGSIZE + PGSIZE)
      | some (pt, i) =>
        let pte := (← get).phys pt i
        if pte &&& PTE_P ≠ 0 then
          let pa := PTE_ADDR pte
          if pa = 0 then failure  -- panic("kfree")
          kfree (P2V pa)
          setWord pt i 0
        deallocLoop pgdir oldsz fuel (a + PGSIZE)
    else pure ()

/-- Deallocate user pages to bring the process size from `oldsz` to `newsz`, and return the new
process size. -/
def deallocuvm (pgdir oldsz newsz : UInt32) : MemM UInt32 := do
  if newsz ≥ oldsz then return oldsz
  deallocLoop pgdir oldsz NPAGES (PGROUNDUP newsz)
  return newsz

/-- The loop of `allocuvm` from `a`: a zeroed page for each page below `newsz`; on failure the
pages allocated so far are freed and the result is `0`. -/
def allocLoop (pgdir oldsz newsz : UInt32) : Nat → UInt32 → MemM UInt32
  | 0, _ => failure
  | fuel + 1, a =>
    if a < newsz then do
      let mem ← kalloc
      if mem = 0 then
        -- cprintf("allocuvm out of memory\n")
        let _ ← deallocuvm pgdir newsz oldsz
        return 0
      setPage (V2P mem) fun _ => 0
      if (← mappages pgdir a PGSIZE (V2P mem) (PTE_W ||| PTE_U)) < 0 then
        -- cprintf("allocuvm out of memory (2)\n")
        let _ ← deallocuvm pgdir newsz oldsz
        kfree mem
        return 0
      allocLoop pgdir oldsz newsz fuel (a + PGSIZE)
    else pure newsz

/-- Allocate page tables and physical memory to grow process from `oldsz` to `newsz`, which need not
be page aligned. Returns new size or `0` on error (the `int` it returns keeps the bits). -/
def allocuvm (pgdir oldsz newsz : UInt32) : MemM UInt32 := do
  if newsz ≥ KERNBASE then return 0
  if newsz < oldsz then return oldsz
  allocLoop pgdir oldsz newsz NPAGES (PGROUNDUP oldsz)

/-- Free a page table and all the physical memory pages in the user part. -/
def freevm (pgdir : UInt32) : MemM Unit := do
  if pgdir = 0 then failure  -- panic("freevm: no pgdir")
  let _ ← deallocuvm pgdir KERNBASE 0
  for i in List.finRange NPDENTRIES do
    let pde := (← get).phys (V2P pgdir) i
    if pde &&& PTE_P ≠ 0 then kfree (P2V (PTE_ADDR pde))
  kfree pgdir

/-- An entry of the table of the kernel's mappings. -/
structure Kmap where
  virt : UInt32
  physStart : UInt32
  physEnd : UInt32
  perm : UInt32

/-- The kernel's mappings, which are present in every process's page table. -/
def kmap (data : UInt32) : List Kmap :=
  [⟨KERNBASE, 0, EXTMEM, PTE_W⟩,           -- I/O space
   ⟨KERNLINK, V2P KERNLINK, V2P data, 0⟩,  -- kern text+rodata
   ⟨data, V2P data, PHYSTOP, PTE_W⟩,       -- kern data+memory
   ⟨DEVSPACE, DEVSPACE, 0, PTE_W⟩]         -- more devices

/-- The loop of `setupkvm` over `kmap`: `false` when a `mappages` fails, the page directory then
freed. -/
def setupkvmLoop (pgdir : UInt32) : List Kmap → MemM Bool
  | [] => pure true
  | k :: ks => do
    if (← mappages pgdir k.virt (k.physEnd - k.physStart) k.physStart k.perm) < 0 then
      freevm pgdir
      pure false
    else setupkvmLoop pgdir ks

/-- Set up kernel part of a page table: the page directory, `0` when out of memory. -/
def setupkvm : MemM UInt32 := do
  let pgdir ← kalloc
  if pgdir = 0 then return 0
  setPage (V2P pgdir) fun _ => 0
  if P2V PHYSTOP > DEVSPACE then failure  -- panic("PHYSTOP too high")
  if ← setupkvmLoop pgdir (kmap (← get).kdata) then return pgdir
  return 0

/-- The loop of `copyuvm` from `i`: a copy of each page below `sz`, with the same flags, in a fresh
page; `false` on `goto bad`. -/
def copyLoop (pgdir d sz : UInt32) : Nat → UInt32 → MemM Bool
  | 0, _ => failure
  | fuel + 1, i =>
    if i < sz then do
      let some (pt, k) ← walkpgdir pgdir i false | failure  -- panic("copyuvm: pte should exist")
      let pte := (← get).phys pt k
      if pte &&& PTE_P = 0 then failure  -- panic("copyuvm: page not present")
      let pa := PTE_ADDR pte
      let flags := PTE_FLAGS pte
      let mem ← kalloc
      if mem = 0 then return false
      setPage (V2P mem) ((← get).phys pa)
      if (← mappages d i PGSIZE (V2P mem) flags) < 0 then
        kfree mem
        return false
      copyLoop pgdir d sz fuel (i + PGSIZE)
    else pure true

/-- Given a parent process's page table, create a copy of it for a child: the child's page
directory, `0` when out of memory, with everything allocated freed. -/
def copyuvm (pgdir sz : UInt32) : MemM UInt32 := do
  let d ← setupkvm
  if d = 0 then return 0
  if ← copyLoop pgdir d sz NPAGES 0 then return d
  freevm d
  return 0

end Xv6
