import Xv6.Vm.Uvm

/-!
# `vm.c`: a page directory is a map from pages to entries

The hardware reads the entry of a virtual address through the page directory and one of its page
tables (`pteOf`). `walkpgdir` finds, and with `alloc` creates, the slot that holds it, and
`mappages` fills the slots of a range of pages. Both keep `PtInv`: the page tables of present
directory entries are pages of their own, one for each entry and none the directory, and the free
list holds distinct page-aligned pages, none of them `0`, the directory or a page table, so that a
page `kalloc` hands out for a new table aliases nothing the map is read from.

* `pteOf_of_frame`, `pteOf_write_table` : what a write to memory does to the map;
* `walkpgdir_present`, `walkpgdir_empty`, `walkpgdir_new`, and `Mem.addTable` : the outcomes of
  `walkpgdir`; `PtInv.addTable`, `pteOf_addTable` : a new table keeps the invariant and the map;
* `Grows` : what a run may change (tables added, stores into the directory and its tables, pages
  taken off the free list), with `Grows.refl`, `Grows.trans` and one lemma per kind of store;
* `walkpgdir_alloc`, `mappagesLoop_turn` : one turn of the loop of `mappages` at an unmapped page;
* `mappagesLoop_spec` : from unmapped pages, the loop maps page `k` of its range to
  `pa + k * PGSIZE` with `perm | PTE_P`, or returns `-1` with no free page left;
* `mappages_map` : `mappages` on unmapped pages changes the map there and nowhere else, and writes
  no page but the directory and its tables.
-/

namespace Xv6

/-- The directory entry `d` of the page directory at the kernel address `pgdir`. -/
def pdeAt (m : Mem) (pgdir : UInt32) (d : Fin NPTENTRIES) : UInt32 := m.phys (V2P pgdir) d

/-- `pt` is a page table of the directory: the page of one of its present entries. -/
def IsTable (m : Mem) (pgdir pt : UInt32) : Prop :=
  ∃ d, pdeAt m pgdir d &&& PTE_P ≠ 0 ∧ PTE_ADDR (pdeAt m pgdir d) = pt

/-- What `walkpgdir` and `mappages` keep of a page directory and the free list. -/
structure PtInv (m : Mem) (pgdir : UInt32) : Prop where
  table_ne_dir : ∀ pt, IsTable m pgdir pt → pt ≠ V2P pgdir
  table_inj : ∀ d d', pdeAt m pgdir d &&& PTE_P ≠ 0 → pdeAt m pgdir d' &&& PTE_P ≠ 0 →
    PTE_ADDR (pdeAt m pgdir d) = PTE_ADDR (pdeAt m pgdir d') → d = d'
  free_nodup : m.freelist.Nodup
  free_ne_zero : 0 ∉ m.freelist
  free_aligned : ∀ v ∈ m.freelist, (V2P v).toNat % 4096 = 0
  free_ne_dir : ∀ v ∈ m.freelist, V2P v ≠ V2P pgdir
  free_ne_table : ∀ v ∈ m.freelist, ¬ IsTable m pgdir (V2P v)

/-! ## Pages and slots -/

theorem toNat_PGROUNDDOWN (va : UInt32) : (PGROUNDDOWN va).toNat = va.toNat / 4096 * 4096 :=
  toNat_PTE_ADDR va

/-- The page `k` pages past `a`, in `uint`. -/
theorem toNat_page (a : UInt32) (k : Nat) :
    (a + PGSIZE * UInt32.ofNat k).toNat = (a.toNat + 4096 * k) % 2 ^ 32 := by
  rw [UInt32.toNat_add, UInt32.toNat_mul, UInt32.toNat_ofNat', show PGSIZE.toNat = 4096 from rfl]
  omega

theorem page_succ (a : UInt32) (k : Nat) :
    a + PGSIZE + PGSIZE * UInt32.ofNat k = a + PGSIZE * UInt32.ofNat (k + 1) := by
  rw [UInt32.ofNat_add, UInt32.ofNat_one, mul_add, mul_one, add_assoc, add_comm PGSIZE, ← add_assoc]

theorem PGROUNDDOWN_of_aligned {a : UInt32} (ha : a.toNat % 4096 = 0) : PGROUNDDOWN a = a := by
  rw [← UInt32.toNat_inj, toNat_PGROUNDDOWN]
  omega

theorem page_zero (a : UInt32) : a + PGSIZE * UInt32.ofNat 0 = a := by
  simp

theorem page_aligned {a : UInt32} (ha : a.toNat % 4096 = 0) (k : Nat) :
    (a + PGSIZE * UInt32.ofNat k).toNat % 4096 = 0 := by
  rw [toNat_page]
  omega

/-- The pages of a range of fewer than `NPAGES` pages are distinct: the address does not wrap. -/
theorem page_ne {a : UInt32} {k : Nat} (hk0 : 0 < k) (hk : k < NPAGES) :
    a + PGSIZE * UInt32.ofNat k ≠ a := by
  intro he
  have ht := congrArg UInt32.toNat he
  have hlt := a.toNat_lt
  rw [toNat_page] at ht
  simp only [NPAGES] at hk
  omega

/-- A virtual address is read through the slots of its page. -/
theorem slots_eq_iff {a va : UInt32} (ha : a.toNat % 4096 = 0) :
    slot (PDX va) = slot (PDX a) ∧ slot (PTX va) = slot (PTX a) ↔ PGROUNDDOWN va = a := by
  have hv := va.toNat_lt
  have hlt := a.toNat_lt
  rw [Fin.ext_iff, Fin.ext_iff, slot_PDX, slot_PDX, slot_PTX, slot_PTX, ← UInt32.toNat_inj,
    toNat_PGROUNDDOWN]
  omega

/-! ## The map -/

section Frame

variable {m m' : Mem} {pgdir : UInt32}

theorem pteOf_eq (va : UInt32) : pteOf m pgdir va =
    if pdeAt m pgdir (slot (PDX va)) &&& PTE_P = 0 then 0
    else m.phys (PTE_ADDR (pdeAt m pgdir (slot (PDX va)))) (slot (PTX va)) := rfl

/-- A memory that agrees on the directory and its tables reads the same map. -/
theorem pteOf_of_frame (hdir : m'.phys (V2P pgdir) = m.phys (V2P pgdir))
    (htab : ∀ pt, IsTable m pgdir pt → m'.phys pt = m.phys pt) : pteOf m' pgdir = pteOf m pgdir := by
  funext va
  have hd : pdeAt m' pgdir = pdeAt m pgdir := hdir
  rw [pteOf_eq, pteOf_eq, hd]
  split
  · rfl
  · rename_i hp
    rw [htab _ ⟨_, hp, rfl⟩]

theorem IsTable.of_frame (hdir : m'.phys (V2P pgdir) = m.phys (V2P pgdir)) {pt : UInt32} :
    IsTable m' pgdir pt ↔ IsTable m pgdir pt := by
  have hd : pdeAt m' pgdir = pdeAt m pgdir := hdir
  rw [IsTable, IsTable, hd]

/-- The invariant reads only the directory and the free list. -/
theorem PtInv.of_frame (h : PtInv m pgdir) (hdir : m'.phys (V2P pgdir) = m.phys (V2P pgdir))
    (hfree : m'.freelist = m.freelist) : PtInv m' pgdir := by
  have hd : pdeAt m' pgdir = pdeAt m pgdir := hdir
  refine ⟨fun pt hpt => h.table_ne_dir pt ((IsTable.of_frame hdir).mp hpt), ?_, ?_, ?_, ?_, ?_, ?_⟩
  · rw [hd]
    exact h.table_inj
  · rw [hfree]
    exact h.free_nodup
  · rw [hfree]
    exact h.free_ne_zero
  · rw [hfree]
    exact h.free_aligned
  · rw [hfree]
    exact h.free_ne_dir
  · rw [hfree]
    exact fun v hv ht => h.free_ne_table v hv ((IsTable.of_frame hdir).mp ht)

end Frame

section Write

variable {m : Mem} {pgdir : UInt32} {d : Fin NPTENTRIES}

/-- A store into the page table of entry `d` changes the entry of the pages read through `d` and
that slot, and no other. -/
theorem pteOf_write_table (h : PtInv m pgdir) (hd : pdeAt m pgdir d &&& PTE_P ≠ 0)
    (i : Fin NPTENTRIES) (w va : UInt32) :
    pteOf (m.write (PTE_ADDR (pdeAt m pgdir d)) i w) pgdir va =
      if slot (PDX va) = d ∧ slot (PTX va) = i then w else pteOf m pgdir va := by
  have hne := h.table_ne_dir _ ⟨d, hd, rfl⟩
  have hdir : pdeAt (m.write (PTE_ADDR (pdeAt m pgdir d)) i w) pgdir = pdeAt m pgdir :=
    Mem.write_phys_of_ne _ _ _ _ hne.symm
  rw [pteOf_eq, pteOf_eq, hdir]
  by_cases hp : pdeAt m pgdir (slot (PDX va)) &&& PTE_P = 0
  · -- no table for `va`: not the slot written, since `d` has one
    have hsd : slot (PDX va) ≠ d := fun he => hd (he ▸ hp)
    rw [if_pos hp, if_pos hp, if_neg (fun h' => hsd h'.1)]
  · rw [if_neg hp, if_neg hp, Mem.write_phys]
    -- one table for each present entry
    have htab : PTE_ADDR (pdeAt m pgdir (slot (PDX va))) = PTE_ADDR (pdeAt m pgdir d) ↔
        slot (PDX va) = d :=
      ⟨h.table_inj _ _ hp hd, fun he => he ▸ rfl⟩
    simp only [htab]

theorem PtInv.write_table (h : PtInv m pgdir) (hd : pdeAt m pgdir d &&& PTE_P ≠ 0)
    (i : Fin NPTENTRIES) (w : UInt32) : PtInv (m.write (PTE_ADDR (pdeAt m pgdir d)) i w) pgdir :=
  h.of_frame (Mem.write_phys_of_ne _ _ _ _ (h.table_ne_dir _ ⟨d, hd, rfl⟩).symm) rfl

end Write

/-! ## `walkpgdir` -/

section Walk

variable {m : Mem} {pgdir va : UInt32}

/-- The memory after `walkpgdir` takes the first free page `t` as the page table of directory
entry `d`: `kalloc` takes it off the list, it is zeroed, and the entry points to it. -/
def Mem.addTable (m : Mem) (pgdir : UInt32) (d : Fin NPTENTRIES) (t : UInt32) : Mem :=
  ({ m with freelist := m.freelist.tail }.fill (V2P t) fun _ => 0).write (V2P pgdir) d
    (V2P t ||| PTE_P ||| PTE_W ||| PTE_U)

theorem walkpgdir_present (alloc : Bool) (hp : pdeAt m pgdir (slot (PDX va)) &&& PTE_P ≠ 0) :
    walkpgdir pgdir va alloc m =
      some (some (PTE_ADDR (pdeAt m pgdir (slot (PDX va))), slot (PTX va)), m) := by
  unfold walkpgdir
  rw [StateOpt.get_bind_eq_some,
    if_pos (show m.phys (V2P pgdir) (slot (PDX va)) &&& PTE_P ≠ 0 from hp)]
  rfl

theorem walkpgdir_lookup_absent (hp : pdeAt m pgdir (slot (PDX va)) &&& PTE_P = 0) :
    walkpgdir pgdir va false m = some (none, m) := by
  unfold walkpgdir
  rw [StateOpt.get_bind_eq_some,
    if_neg (show ¬ m.phys (V2P pgdir) (slot (PDX va)) &&& PTE_P ≠ 0 from not_not.mpr hp)]
  rfl

theorem kalloc_empty (hf : m.freelist = []) : kalloc m = some (0, m) := by
  unfold kalloc
  rw [StateOpt.get_bind_eq_some, hf]
  rfl

theorem kalloc_cons {t : UInt32} {rest : List UInt32} (hf : m.freelist = t :: rest) :
    kalloc m = some (t, { m with freelist := rest }) := by
  unfold kalloc
  rw [StateOpt.get_bind_eq_some, hf]
  rfl

theorem walkpgdir_empty (hp : pdeAt m pgdir (slot (PDX va)) &&& PTE_P = 0) (hf : m.freelist = []) :
    walkpgdir pgdir va true m = some (none, m) := by
  unfold walkpgdir
  rw [StateOpt.get_bind_eq_some,
    if_neg (show ¬ m.phys (V2P pgdir) (slot (PDX va)) &&& PTE_P ≠ 0 from not_not.mpr hp),
    if_neg (by decide), StateOpt.bind_of_eq_some (kalloc_empty hf)]
  rfl

theorem walkpgdir_new {t : UInt32} {rest : List UInt32}
    (hp : pdeAt m pgdir (slot (PDX va)) &&& PTE_P = 0) (hf : m.freelist = t :: rest) (ht : t ≠ 0) :
    walkpgdir pgdir va true m =
      some (some (V2P t, slot (PTX va)), m.addTable pgdir (slot (PDX va)) t) := by
  unfold walkpgdir
  rw [StateOpt.get_bind_eq_some,
    if_neg (show ¬ m.phys (V2P pgdir) (slot (PDX va)) &&& PTE_P ≠ 0 from not_not.mpr hp),
    if_neg (by decide), StateOpt.bind_of_eq_some (kalloc_cons hf)]
  simp only [Mem.addTable, hf, List.tail_cons]
  rw [if_neg ht]
  rfl

end Walk

/-! ## A new page table -/

section AddTable

variable {m : Mem} {pgdir t : UInt32} {rest : List UInt32} {d : Fin NPTENTRIES}

/-- The flags `walkpgdir` gives a directory entry. -/
theorem pde_flags_lt : (PTE_P ||| PTE_W ||| PTE_U).toNat < 4096 := by decide

theorem newPde_eq (x : UInt32) :
    x ||| PTE_P ||| PTE_W ||| PTE_U = x ||| (PTE_P ||| PTE_W ||| PTE_U) := by
  rw [UInt32.or_assoc, UInt32.or_assoc, UInt32.or_assoc]

theorem newPde_present {x : UInt32} (hx : x.toNat % 4096 = 0) :
    (x ||| PTE_P ||| PTE_W ||| PTE_U) &&& PTE_P ≠ 0 := by
  rw [newPde_eq, or_and_PTE_P hx]
  decide

theorem PTE_ADDR_newPde {x : UInt32} (hx : x.toNat % 4096 = 0) :
    PTE_ADDR (x ||| PTE_P ||| PTE_W ||| PTE_U) = x := by
  rw [newPde_eq, PTE_ADDR_or hx pde_flags_lt]

theorem addTable_phys_of_ne {p : UInt32} (hp : p ≠ V2P pgdir) (ht : p ≠ V2P t) :
    (m.addTable pgdir d t).phys p = m.phys p := by
  rw [Mem.addTable, Mem.write_phys_of_ne _ _ _ _ hp, Mem.fill_phys, if_neg ht]

theorem addTable_freelist (hf : m.freelist = t :: rest) : (m.addTable pgdir d t).freelist = rest := by
  simp [Mem.addTable, hf]

section

variable (h : PtInv m pgdir) (hf : m.freelist = t :: rest)
include h hf

theorem addTable_ne_dir : V2P t ≠ V2P pgdir := h.free_ne_dir t (hf ▸ List.mem_cons_self)

theorem pdeAt_addTable (d' : Fin NPTENTRIES) :
    pdeAt (m.addTable pgdir d t) pgdir d' =
      if d' = d then V2P t ||| PTE_P ||| PTE_W ||| PTE_U else pdeAt m pgdir d' := by
  have hne := addTable_ne_dir h hf
  simp only [pdeAt, Mem.addTable, Mem.write_phys, Mem.fill_phys, if_neg hne.symm, true_and]

theorem addTable_phys_table : (m.addTable pgdir d t).phys (V2P t) = fun _ => 0 := by
  rw [Mem.addTable, Mem.write_phys_of_ne _ _ _ _ (addTable_ne_dir h hf), Mem.fill_phys, if_pos rfl]

variable (hd : pdeAt m pgdir d &&& PTE_P = 0)
include hd

/-- The tables after the new one: it, and those of the other entries. -/
theorem isTable_addTable {pt : UInt32} :
    IsTable (m.addTable pgdir d t) pgdir pt ↔ pt = V2P t ∨ IsTable m pgdir pt := by
  have ht := h.free_aligned t (hf ▸ List.mem_cons_self)
  constructor
  · rintro ⟨d', hp, rfl⟩
    rw [pdeAt_addTable h hf] at hp ⊢
    by_cases hd' : d' = d
    · rw [if_pos hd', PTE_ADDR_newPde ht]
      exact Or.inl rfl
    · rw [if_neg hd'] at hp ⊢
      exact Or.inr ⟨d', hp, rfl⟩
  · rintro (rfl | ⟨d', hp, rfl⟩)
    · refine ⟨d, ?_, ?_⟩ <;> rw [pdeAt_addTable h hf, if_pos rfl]
      · exact newPde_present ht
      · exact PTE_ADDR_newPde ht
    · have hd' : d' ≠ d := fun he => hp (he ▸ hd)
      refine ⟨d', ?_, ?_⟩ <;> rw [pdeAt_addTable h hf, if_neg hd']
      exact hp

theorem PtInv.addTable : PtInv (m.addTable pgdir d t) pgdir := by
  have hmem : t ∈ m.freelist := hf ▸ List.mem_cons_self
  have ht := h.free_aligned t hmem
  have hnd : (t :: rest).Nodup := hf ▸ h.free_nodup
  have hsub : ∀ v ∈ rest, v ∈ m.freelist := fun v hv => hf ▸ List.mem_cons_of_mem t hv
  -- a free page other than `t` is not the new table
  have hfresh : ∀ v ∈ rest, V2P v ≠ V2P t := fun v hv he =>
    (List.nodup_cons.mp hnd).1 (sub_left_inj.mp he ▸ hv)
  refine ⟨fun pt hpt => ?_, fun d₁ d₂ h₁ h₂ he => ?_, ?_, ?_, ?_, ?_, ?_⟩
  · rcases (isTable_addTable h hf hd).mp hpt with rfl | hpt
    · exact addTable_ne_dir h hf
    · exact h.table_ne_dir pt hpt
  · simp only [pdeAt_addTable h hf] at h₁ h₂ he
    by_cases hd₁ : d₁ = d <;> by_cases hd₂ : d₂ = d
    · exact hd₁.trans hd₂.symm
    · -- the new table is no old one
      rw [if_pos hd₁, if_neg hd₂, PTE_ADDR_newPde ht] at he
      rw [if_neg hd₂] at h₂
      exact absurd ⟨d₂, h₂, he.symm⟩ (h.free_ne_table t hmem)
    · rw [if_neg hd₁, if_pos hd₂, PTE_ADDR_newPde ht] at he
      rw [if_neg hd₁] at h₁
      exact absurd ⟨d₁, h₁, he⟩ (h.free_ne_table t hmem)
    · rw [if_neg hd₁, if_neg hd₂] at he
      rw [if_neg hd₁] at h₁
      rw [if_neg hd₂] at h₂
      exact h.table_inj d₁ d₂ h₁ h₂ he
  · rw [addTable_freelist hf]
    exact (List.nodup_cons.mp hnd).2
  · rw [addTable_freelist hf]
    exact fun h0 => h.free_ne_zero (hsub 0 h0)
  · rw [addTable_freelist hf]
    exact fun v hv => h.free_aligned v (hsub v hv)
  · rw [addTable_freelist hf]
    exact fun v hv => h.free_ne_dir v (hsub v hv)
  · rw [addTable_freelist hf]
    intro v hv hvt
    rcases (isTable_addTable h hf hd).mp hvt with he | hvt
    · exact hfresh v hv he
    · exact h.free_ne_table v (hsub v hv) hvt

/-- The new table is all zeroes, so every entry read through it is `0`, as it was. -/
theorem pteOf_addTable : pteOf (m.addTable pgdir d t) pgdir = pteOf m pgdir := by
  have ht := h.free_aligned t (hf ▸ List.mem_cons_self)
  funext va
  rw [pteOf_eq, pteOf_eq, pdeAt_addTable h hf]
  by_cases hv : slot (PDX va) = d
  · rw [if_pos hv, if_neg (newPde_present ht), PTE_ADDR_newPde ht, addTable_phys_table h hf,
      hv, if_pos hd]
  · rw [if_neg hv]
    split
    · rfl
    · rename_i hp
      have hpt : IsTable m pgdir (PTE_ADDR (pdeAt m pgdir (slot (PDX va)))) := ⟨_, hp, rfl⟩
      rw [addTable_phys_of_ne (h.table_ne_dir _ hpt)
        (fun he => h.free_ne_table t (hf ▸ List.mem_cons_self) (he ▸ hpt))]

end

end AddTable

/-! ## What `walkpgdir` and `mappages` change -/

/-- What `walkpgdir` and `mappages` may do to memory: keep the invariant, add page tables, write
into the directory and its tables and nowhere else, and take pages off the head of the free list. -/
structure Grows (pgdir : UInt32) (m m' : Mem) : Prop where
  inv : PtInv m' pgdir
  table_mono : ∀ pt, IsTable m pgdir pt → IsTable m' pgdir pt
  frame : ∀ p, p ≠ V2P pgdir → ¬ IsTable m' pgdir p → m'.phys p = m.phys p
  free_suffix : m'.freelist <:+ m.freelist

section Grows

variable {m m₁ m₂ : Mem} {pgdir : UInt32}

theorem Grows.refl (h : PtInv m pgdir) : Grows pgdir m m :=
  ⟨h, fun _ hpt => hpt, fun _ _ _ => rfl, List.suffix_refl _⟩

theorem Grows.trans (h₁ : Grows pgdir m m₁) (h₂ : Grows pgdir m₁ m₂) : Grows pgdir m m₂ := by
  refine ⟨h₂.inv, fun pt hpt => h₂.table_mono pt (h₁.table_mono pt hpt), fun p hp hpt => ?_,
    h₂.free_suffix.trans h₁.free_suffix⟩
  -- a page that is no table after was none in between either
  rw [h₂.frame p hp hpt, h₁.frame p hp fun hpt₁ => hpt (h₂.table_mono p hpt₁)]

theorem Grows.write_table {d : Fin NPTENTRIES} (h : PtInv m pgdir) (hd : pdeAt m pgdir d &&& PTE_P ≠ 0)
    (i : Fin NPTENTRIES) (w : UInt32) : Grows pgdir m (m.write (PTE_ADDR (pdeAt m pgdir d)) i w) := by
  have hdir := Mem.write_phys_of_ne m _ i w (h.table_ne_dir _ ⟨d, hd, rfl⟩).symm
  refine ⟨h.write_table hd i w, fun pt hpt => (IsTable.of_frame hdir).mpr hpt, fun p _ hpt => ?_,
    List.suffix_refl _⟩
  -- the page written is a table
  have hne : p ≠ PTE_ADDR (pdeAt m pgdir d) := fun he =>
    hpt ((IsTable.of_frame hdir).mpr (he ▸ ⟨d, hd, rfl⟩))
  exact Mem.write_phys_of_ne _ _ _ _ hne

theorem Grows.addTable {t : UInt32} {rest : List UInt32} {d : Fin NPTENTRIES} (h : PtInv m pgdir)
    (hf : m.freelist = t :: rest) (hd : pdeAt m pgdir d &&& PTE_P = 0) :
    Grows pgdir m (m.addTable pgdir d t) := by
  refine ⟨h.addTable hf hd, fun pt hpt => (isTable_addTable h hf hd).mpr (Or.inr hpt),
    fun p hp hpt => ?_, ?_⟩
  · exact addTable_phys_of_ne hp fun he => hpt ((isTable_addTable h hf hd).mpr (Or.inl he))
  · rw [addTable_freelist hf, hf]
    exact List.suffix_cons t rest

end Grows

section WalkAlloc

variable {m : Mem} {pgdir va : UInt32}

/-- `walkpgdir` with `alloc` fails only when the free list is empty; otherwise it returns the slot
of `va` in a present table of a memory that grows from `m` and reads the same map. -/
theorem walkpgdir_alloc (h : PtInv m pgdir) :
    walkpgdir pgdir va true m = some (none, m) ∧ m.freelist = [] ∨
      ∃ m', walkpgdir pgdir va true m =
          some (some (PTE_ADDR (pdeAt m' pgdir (slot (PDX va))), slot (PTX va)), m') ∧
        pdeAt m' pgdir (slot (PDX va)) &&& PTE_P ≠ 0 ∧ Grows pgdir m m' ∧
        pteOf m' pgdir = pteOf m pgdir := by
  by_cases hp : pdeAt m pgdir (slot (PDX va)) &&& PTE_P = 0
  · cases hf : m.freelist with
    | nil => exact Or.inl ⟨walkpgdir_empty hp hf, rfl⟩
    | cons t rest =>
      have hmem : t ∈ m.freelist := hf ▸ List.mem_cons_self
      have ht := h.free_aligned t hmem
      have ht0 : t ≠ 0 := fun he => h.free_ne_zero (he ▸ hmem)
      refine Or.inr ⟨m.addTable pgdir (slot (PDX va)) t, ?_, ?_, Grows.addTable h hf hp,
        pteOf_addTable h hf hp⟩
      · rw [pdeAt_addTable h hf, if_pos rfl, PTE_ADDR_newPde ht]
        exact walkpgdir_new hp hf ht0
      · rw [pdeAt_addTable h hf, if_pos rfl]
        exact newPde_present ht
  · exact Or.inr ⟨m, walkpgdir_present true hp, hp, Grows.refl h, rfl⟩

end WalkAlloc

/-! ## `mappages` -/

section Loop

variable {m m' : Mem} {pgdir perm a pa : UInt32}

theorem mappagesLoop_none (n : Nat) (hw : walkpgdir pgdir a true m = some (none, m')) :
    mappagesLoop pgdir perm n a pa m = some (-1, m') := by
  unfold mappagesLoop
  rw [StateOpt.bind_of_eq_some hw]
  rfl

theorem mappagesLoop_last {pt : UInt32} {i : Fin NPTENTRIES}
    (hw : walkpgdir pgdir a true m = some (some (pt, i), m')) (hfree : m'.phys pt i &&& PTE_P = 0) :
    mappagesLoop pgdir perm 0 a pa m = some (0, m'.write pt i (pa ||| perm ||| PTE_P)) := by
  unfold mappagesLoop
  rw [StateOpt.bind_of_eq_some hw]
  dsimp only
  rw [StateOpt.bind_of_eq_some (show (get : MemM Mem) m' = some (m', m') from rfl)]
  simp only [hfree, ne_eq, not_true_eq_false, ↓reduceIte]
  rfl

theorem mappagesLoop_step {n : Nat} {pt : UInt32} {i : Fin NPTENTRIES}
    (hw : walkpgdir pgdir a true m = some (some (pt, i), m')) (hfree : m'.phys pt i &&& PTE_P = 0) :
    mappagesLoop pgdir perm (n + 1) a pa m =
      mappagesLoop pgdir perm n (a + PGSIZE) (pa + PGSIZE) (m'.write pt i (pa ||| perm ||| PTE_P)) := by
  rw [mappagesLoop, StateOpt.bind_of_eq_some hw]
  dsimp only
  rw [StateOpt.bind_of_eq_some (show (get : MemM Mem) m' = some (m', m') from rfl)]
  simp only [hfree, ne_eq, not_true_eq_false, ↓reduceIte]
  rfl

/-- One turn of the loop at an unmapped page `a`: either `walkpgdir` finds no free page, or it
returns a free slot, and the store `w` there makes `w` the entry of the page `a` and of no other. -/
theorem mappagesLoop_turn (h : PtInv m pgdir) (ha : a.toNat % 4096 = 0)
    (hfree : pteOf m pgdir a &&& PTE_P = 0) (w : UInt32) :
    walkpgdir pgdir a true m = some (none, m) ∧ m.freelist = [] ∨
      ∃ pt i m₁, walkpgdir pgdir a true m = some (some (pt, i), m₁) ∧
        m₁.phys pt i &&& PTE_P = 0 ∧ Grows pgdir m (m₁.write pt i w) ∧
        ∀ va, pteOf (m₁.write pt i w) pgdir va =
          if PGROUNDDOWN va = a then w else pteOf m pgdir va := by
  rcases @walkpgdir_alloc m pgdir a h with hn | ⟨m₁, hw, hp, hg, hmap⟩
  · exact Or.inl hn
  refine Or.inr ⟨_, _, m₁, hw, ?_, hg.trans (Grows.write_table hg.inv hp _ w), fun va => ?_⟩
  · -- the slot holds the entry of `a`, which the walk did not change
    have hslot : pteOf m₁ pgdir a =
        m₁.phys (PTE_ADDR (pdeAt m₁ pgdir (slot (PDX a)))) (slot (PTX a)) := by
      rw [pteOf_eq, if_neg hp]
    rw [← hslot, hmap]
    exact hfree
  · rw [pteOf_write_table hg.inv hp, hmap]
    simp only [slots_eq_iff ha]

/-- From unmapped pages, the loop maps page `k` of its `n + 1` pages to `pa + k * PGSIZE` with
`perm | PTE_P` and changes no other entry, or returns `-1` with no free page left; either way the
memory grows from `m`. -/
theorem mappagesLoop_spec (n : Nat) (hn : n < NPAGES) (h : PtInv m pgdir) (ha : a.toNat % 4096 = 0)
    (hfree : ∀ k ≤ n, pteOf m pgdir (a + PGSIZE * UInt32.ofNat k) &&& PTE_P = 0) :
    ∃ r m', mappagesLoop pgdir perm n a pa m = some (r, m') ∧ Grows pgdir m m' ∧
      (∀ va, (∀ k ≤ n, PGROUNDDOWN va ≠ a + PGSIZE * UInt32.ofNat k) →
        pteOf m' pgdir va = pteOf m pgdir va) ∧
      (r = 0 ∧ (∀ k ≤ n, pteOf m' pgdir (a + PGSIZE * UInt32.ofNat k) =
          (pa + PGSIZE * UInt32.ofNat k) ||| perm ||| PTE_P) ∨
        r = -1 ∧ m'.freelist = []) := by
  -- on the pages left, generalizing the page, its frame and the memory of the turn
  induction n generalizing a pa m with
  | zero =>
    have h0 := hfree 0 le_rfl
    rw [page_zero] at h0
    rcases mappagesLoop_turn h ha h0 (pa ||| perm ||| PTE_P) with
      ⟨hw, hf⟩ | ⟨pt, i, m₁, hw, hpt, hg, hmap⟩
    · exact ⟨-1, m, mappagesLoop_none 0 hw, Grows.refl h, fun _ _ => rfl, Or.inr ⟨rfl, hf⟩⟩
    refine ⟨0, _, mappagesLoop_last hw hpt, hg, fun va hva => ?_, Or.inl ⟨rfl, fun k hk => ?_⟩⟩
    · rw [hmap, if_neg (page_zero a ▸ hva 0 le_rfl)]
    · obtain rfl : k = 0 := Nat.le_zero.mp hk
      rw [page_zero, page_zero, hmap, if_pos (PGROUNDDOWN_of_aligned ha)]
  | succ n ih =>
    have h0 := hfree 0 (Nat.zero_le _)
    rw [page_zero] at h0
    rcases mappagesLoop_turn h ha h0 (pa ||| perm ||| PTE_P) with
      ⟨hw, hf⟩ | ⟨pt, i, m₁, hw, hpt, hg, hmap⟩
    · exact ⟨-1, m, mappagesLoop_none _ hw, Grows.refl h, fun _ _ => rfl, Or.inr ⟨rfl, hf⟩⟩
    -- the pages after `a` are not `a`, so the store at `a` leaves them unmapped
    have hne : ∀ k ≤ n, a + PGSIZE * UInt32.ofNat (k + 1) ≠ a := fun k hk =>
      page_ne (Nat.succ_pos k) (by omega)
    have ha' : (a + PGSIZE).toNat % 4096 = 0 := by
      simpa [page_zero, page_succ] using page_aligned ha 1
    have hfree' : ∀ k ≤ n, pteOf (m₁.write pt i (pa ||| perm ||| PTE_P)) pgdir
        (a + PGSIZE + PGSIZE * UInt32.ofNat k) &&& PTE_P = 0 := by
      intro k hk
      rw [page_succ, hmap, PGROUNDDOWN_of_aligned (page_aligned ha _), if_neg (hne k hk)]
      exact hfree (k + 1) (by omega)
    obtain ⟨r, m', hrun, hg', hout, hres⟩ := ih (by omega) hg.inv ha' hfree'
    refine ⟨r, m', (mappagesLoop_step hw hpt).trans hrun, hg.trans hg', fun va hva => ?_, ?_⟩
    · have hva' : ∀ k ≤ n, PGROUNDDOWN va ≠ a + PGSIZE + PGSIZE * UInt32.ofNat k := fun k hk => by
        rw [page_succ]
        exact hva (k + 1) (by omega)
      rw [hout va hva', hmap, if_neg (page_zero a ▸ hva 0 (Nat.zero_le _))]
    rcases hres with ⟨rfl, hmapped⟩ | hfail
    · refine Or.inl ⟨rfl, fun k hk => ?_⟩
      cases k with
      | zero =>
        -- the page `a` keeps the entry of the first turn
        have hpage : ∀ k ≤ n, PGROUNDDOWN a ≠ a + PGSIZE + PGSIZE * UInt32.ofNat k :=
            fun k hk => by
          rw [PGROUNDDOWN_of_aligned ha, page_succ]
          exact (hne k hk).symm
        rw [page_zero, page_zero, hout a hpage, hmap, if_pos (PGROUNDDOWN_of_aligned ha)]
      | succ k =>
        rw [← page_succ, ← page_succ]
        exact hmapped k (by omega)
    · exact Or.inr hfail

end Loop

/-- The pages `mappages` maps after the first, `(last - a) / PGSIZE`. -/
def mappagesCount (va size : UInt32) : Nat :=
  ((PGROUNDDOWN (va + size - 1) - PGROUNDDOWN va) / PGSIZE).toNat

theorem mappages_eq (pgdir va size pa perm : UInt32) :
    mappages pgdir va size pa perm =
      mappagesLoop pgdir perm (mappagesCount va size) (PGROUNDDOWN va) pa :=
  rfl

theorem mappagesCount_lt (va size : UInt32) : mappagesCount va size < NPAGES := by
  have hlt := (PGROUNDDOWN (va + size - 1) - PGROUNDDOWN va).toNat_lt
  rw [mappagesCount, UInt32.toNat_div, show PGSIZE.toNat = 4096 from rfl, NPAGES]
  omega

section Mappages

variable {m : Mem} {pgdir va size pa perm : UInt32}

/-- `mappages` on unmapped pages maps page `k` of the range from `PGROUNDDOWN va` to
`pa + k * PGSIZE` with `perm | PTE_P` and changes no entry outside the range, or returns `-1`
once the free list runs out; it never panics, keeps the invariant, and writes no page but the
directory and its page tables, which it takes off the head of the free list. -/
theorem mappages_map (h : PtInv m pgdir)
    (hfree : ∀ k ≤ mappagesCount va size,
      pteOf m pgdir (PGROUNDDOWN va + PGSIZE * UInt32.ofNat k) &&& PTE_P = 0) :
    ∃ r m', mappages pgdir va size pa perm m = some (r, m') ∧ Grows pgdir m m' ∧
      (∀ va', (∀ k ≤ mappagesCount va size,
          PGROUNDDOWN va' ≠ PGROUNDDOWN va + PGSIZE * UInt32.ofNat k) →
        pteOf m' pgdir va' = pteOf m pgdir va') ∧
      (r = 0 ∧ (∀ k ≤ mappagesCount va size,
          pteOf m' pgdir (PGROUNDDOWN va + PGSIZE * UInt32.ofNat k) =
            (pa + PGSIZE * UInt32.ofNat k) ||| perm ||| PTE_P) ∨
        r = -1 ∧ m'.freelist = []) := by
  have ha : (PGROUNDDOWN va).toNat % 4096 = 0 := by
    rw [toNat_PGROUNDDOWN]
    omega
  rw [mappages_eq]
  exact mappagesLoop_spec _ (mappagesCount_lt va size) h ha hfree

end Mappages

/-- A directory with no present entry has no page tables: the invariant is that of the free list. -/
theorem PtInv.of_empty {m : Mem} {pgdir : UInt32} (hdir : ∀ d, pdeAt m pgdir d &&& PTE_P = 0)
    (hnd : m.freelist.Nodup) (h0 : 0 ∉ m.freelist)
    (hal : ∀ v ∈ m.freelist, (V2P v).toNat % 4096 = 0)
    (hne : ∀ v ∈ m.freelist, V2P v ≠ V2P pgdir) : PtInv m pgdir := by
  have hnt : ∀ pt, ¬ IsTable m pgdir pt := fun _ ⟨d, hp, _⟩ => hp (hdir d)
  exact ⟨fun pt hpt => absurd hpt (hnt pt), fun d _ hp => absurd (hdir d) hp, hnd, h0, hal, hne,
    fun v _ => hnt (V2P v)⟩

/-- Zeroed memory, its directory at `KERNBASE + 0x1000` and one free page above it. -/
def emptyDirMem : Mem := ⟨fun _ _ => 0, [KERNBASE + 0x2000], 0, 0⟩

theorem mappages_map_emptyDir :
    ∃ r m', mappages (KERNBASE + 0x1000) 0 PGSIZE 0x5000 PTE_W emptyDirMem = some (r, m') ∧
      Grows (KERNBASE + 0x1000) emptyDirMem m' ∧
      (∀ va', (∀ k ≤ mappagesCount 0 PGSIZE,
          PGROUNDDOWN va' ≠ PGROUNDDOWN 0 + PGSIZE * UInt32.ofNat k) →
        pteOf m' (KERNBASE + 0x1000) va' = pteOf emptyDirMem (KERNBASE + 0x1000) va') ∧
      (r = 0 ∧ (∀ k ≤ mappagesCount 0 PGSIZE,
          pteOf m' (KERNBASE + 0x1000) (PGROUNDDOWN 0 + PGSIZE * UInt32.ofNat k) =
            (0x5000 + PGSIZE * UInt32.ofNat k) ||| PTE_W ||| PTE_P) ∨
        r = -1 ∧ m'.freelist = []) :=
  mappages_map
    (PtInv.of_empty (fun _ => by simp only [pdeAt, emptyDirMem, UInt32.zero_and])
      (List.nodup_singleton _) (by simp [emptyDirMem, KERNBASE])
      (fun v hv => by
        rw [show v = KERNBASE + 0x2000 from List.mem_singleton.mp hv]
        rfl)
      (fun v hv => by
        rw [show v = KERNBASE + 0x2000 from List.mem_singleton.mp hv]
        decide))
    (fun _ _ => by simp only [pteOf_eq, pdeAt, emptyDirMem, UInt32.zero_and, ite_self])

end Xv6
