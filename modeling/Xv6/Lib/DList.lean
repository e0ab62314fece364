import Mathlib.Logic.Function.Basic
import Mathlib.Data.List.Nodup

/-!
# Circular doubly-linked lists with a sentinel

Nodes of a type `P` linked by two functions `next` and `prev`:

* `Seg next prev p l q` : from `p` through the nodes `l` in order to `q`, each linked forward by
  `next` and back by `prev`; a circular list with the sentinel `h` is `Seg next prev h l h`;
* `seg_append`, `Seg.reverse` (the same segment read backwards through `prev`), `Seg.congr` (a
  segment depends only on the links of its own nodes);
* `scan` : the loop `for (x = start; x != stop; x = next(x)) if (pred(x)) ...`, with fuel;
  `Seg.scan` : on a segment it finds the first node of the list satisfying `pred`;
* `pushFront` : link a new node after the sentinel (`Seg.pushFront`); `moveFront` : unlink a
  node and relink it after the sentinel by the six pointer writes of the usual code;
  `Seg.moveFront` : the list becomes the node followed by the others in order, and
  `idxOf_moveFront_lt_iff` : the others keep their order.
-/

namespace DList

variable {P : Type}

/-- The nodes `l` between `p` and `q`, linked forward by `next` and back by `prev`. -/
def Seg (next prev : P → P) : P → List P → P → Prop
  | p, [], q => next p = q ∧ prev q = p
  | p, b :: l, q => next p = b ∧ prev b = p ∧ Seg next prev b l q

variable {next prev : P → P}

theorem seg_append {p q b : P} {l₁ l₂ : List P} :
    Seg next prev p (l₁ ++ b :: l₂) q ↔ Seg next prev p l₁ b ∧ Seg next prev b l₂ q := by
  induction l₁ generalizing p with
  | nil => simp only [List.nil_append, Seg, and_assoc]
  | cons a l₁ ih => simp only [List.cons_append, Seg, ih, and_assoc]

/-- Read backwards, a segment is a segment of `prev` and `next`. -/
theorem Seg.reverse {p q : P} {l : List P} (h : Seg next prev p l q) :
    Seg prev next q l.reverse p := by
  induction l generalizing p with
  | nil => exact ⟨h.2, h.1⟩
  | cons b l ih =>
    obtain ⟨hn, hp, hs⟩ := h
    rw [List.reverse_cons, seg_append]
    exact ⟨ih hs, hp, hn⟩

/-- A segment holds under links that agree on its nodes. -/
theorem Seg.congr {next' prev' : P → P} {p q : P} {l : List P}
    (hn : ∀ x ∈ p :: l, next' x = next x) (hp : ∀ x ∈ l ++ [q], prev' x = prev x)
    (h : Seg next prev p l q) : Seg next' prev' p l q := by
  induction l generalizing p with
  | nil =>
    obtain ⟨h1, h2⟩ := h
    exact ⟨(hn p (by simp)).trans h1, (hp q (by simp)).trans h2⟩
  | cons b l ih =>
    obtain ⟨h1, h2, h3⟩ := h
    refine ⟨(hn p (by simp)).trans h1, (hp b (by simp)).trans h2, ih ?_ ?_ h3⟩
    · intro x hx
      exact hn x (List.mem_cons_of_mem _ hx)
    · intro x hx
      exact hp x (List.mem_cons_of_mem _ hx)

/-- The start's successor is the first node of the segment, or its end. -/
theorem Seg.next_mem {p q : P} {l : List P} (h : Seg next prev p l q) : next p ∈ l ++ [q] := by
  cases l with
  | nil => simp [h.1]
  | cons b l => simp [h.1]

/-- The first node's predecessor is the start. -/
theorem Seg.first {p q : P} {l : List P} (h : Seg next prev p l q) :
    prev (next p) = p := by
  cases l with
  | nil => rw [h.1, h.2]
  | cons b l => rw [h.1, h.2.1]

/-- Along a segment, `prev` undoes `next` on every node but the end. -/
theorem Seg.prev_next {p q : P} {l : List P} (h : Seg next prev p l q) :
    ∀ x ∈ p :: l, prev (next x) = x := by
  induction l generalizing p with
  | nil =>
    intro x hx
    rw [List.mem_singleton.mp hx]
    exact h.first
  | cons b l ih =>
    intro x hx
    rcases List.mem_cons.mp hx with rfl | hx
    · exact h.first
    · exact ih h.2.2 x hx

/-- Along a segment, `next` undoes `prev` on every node but the start. -/
theorem Seg.next_prev {p q : P} {l : List P} (h : Seg next prev p l q) :
    ∀ x ∈ l ++ [q], next (prev x) = x := by
  intro x hx
  exact h.reverse.prev_next x (by simpa [or_comm] using hx)

/-! ## Scans -/

variable [DecidableEq P]

/-- The loop `for (x = start; x != stop; x = next(x)) if (pred(x)) return x;`: `some none`
when it reaches `stop`, `none` when the fuel runs out first. -/
def scan (next : P → P) (stop : P) (pred : P → Bool) : Nat → P → Option (Option P)
  | 0, x => if x = stop then some none else none
  | fuel + 1, x =>
    if x = stop then some none
    else if pred x then some (some x)
    else scan next stop pred fuel (next x)

/-- On a segment ending at `stop`, the scan from the first node finds the first node of the
list satisfying `pred`, given fuel for every node. -/
theorem Seg.scan {p q : P} {l : List P} (pred : P → Bool) {fuel : Nat} (h : Seg next prev p l q)
    (hq : q ∉ l) (hfuel : l.length ≤ fuel) :
    DList.scan next q pred fuel (next p) = some (l.find? pred) := by
  induction l generalizing p fuel with
  | nil =>
    rw [h.1]
    cases fuel <;> simp [DList.scan]
  | cons b l ih =>
    obtain ⟨h1, -, h3⟩ := h
    have hb : b ≠ q := fun e => hq (e ▸ List.mem_cons_self)
    obtain ⟨fuel, rfl⟩ : ∃ k, fuel = k + 1 := ⟨fuel - 1, by simp at hfuel; omega⟩
    rw [h1]
    by_cases hpb : pred b
    · simp [DList.scan, hb, hpb]
    · rw [DList.scan, if_neg hb, if_neg hpb, ih h3 (fun e => hq (List.mem_cons_of_mem _ e))
        (by simp at hfuel; omega)]
      simp [hpb]

/-! ## Linking a new node at the front -/

/-- `b->next = h->next; b->prev = h; h->next->prev = b; h->next = b`. -/
def pushFront (next prev : P → P) (h b : P) : (P → P) × (P → P) :=
  let next₁ := Function.update next b (next h)
  let prev₁ := Function.update prev b h
  let prev₂ := Function.update prev₁ (next₁ h) b
  let next₂ := Function.update next₁ h b
  (next₂, prev₂)

theorem Seg.pushFront {h b : P} {l : List P} (hs : Seg next prev h l h) (hnd : (h :: l).Nodup)
    (hbl : b ∉ l) (hbh : b ≠ h) :
    Seg (pushFront next prev h b).1 (pushFront next prev h b).2 h (b :: l) h := by
  have hf : next h ∈ l ++ [h] := hs.next_mem
  have hfb : next h ≠ b := fun e => by
    rw [e] at hf
    simp only [List.mem_append, List.mem_singleton] at hf
    exact hf.elim hbl hbh
  simp only [List.nodup_cons] at hnd
  refine ⟨by simp [DList.pushFront],
    by simp [DList.pushFront, Function.update_apply, Ne.symm hfb], ?_⟩
  cases l with
  | nil =>
    obtain ⟨hhh, -⟩ := hs
    exact ⟨by simp [DList.pushFront, hbh, hhh], by simp [DList.pushFront, hbh.symm, hhh]⟩
  | cons c l =>
    obtain ⟨hhc, hch, hc⟩ := hs
    simp only [List.mem_cons, not_or, List.nodup_cons] at hnd hbl
    refine ⟨by simp [DList.pushFront, hbh, hhc], by simp [DList.pushFront, hbh.symm, hhc],
      hc.congr (fun z hz => ?_) (fun z hz => ?_)⟩
    · have hzb : z ≠ b := by
        rintro rfl
        rcases List.mem_cons.mp hz with e | hz
        · exact hbl.1 e
        · exact hbl.2 hz
      have hzh : z ≠ h := by
        rintro rfl
        rcases List.mem_cons.mp hz with e | hz
        · exact hnd.1.1 e
        · exact hnd.1.2 hz
      simp [DList.pushFront, Function.update_apply, hzb, hzh]
    · have hzb : z ≠ b := by
        rintro rfl
        simp only [List.mem_append, List.mem_singleton] at hz
        exact hz.elim hbl.2 hbh
      have hzc : z ≠ c := by
        rintro rfl
        simp only [List.mem_append, List.mem_singleton] at hz
        exact hz.elim hnd.2.1 (fun e => hnd.1.1 e.symm)
      simp [DList.pushFront, Function.update_apply, hzb, hzc, hhc]

/-! ## Moving a node to the front -/

/-- `b->next->prev = b->prev; b->prev->next = b->next; b->next = h->next; b->prev = h;
h->next->prev = b; h->next = b`, each write reading the links as the writes before left them. -/
def moveFront (next prev : P → P) (h b : P) : (P → P) × (P → P) :=
  let prev₁ := Function.update prev (next b) (prev b)
  let next₁ := Function.update next (prev₁ b) (next b)
  let next₂ := Function.update next₁ b (next₁ h)
  let prev₂ := Function.update prev₁ b h
  let prev₃ := Function.update prev₂ (next₂ h) b
  let next₃ := Function.update next₂ h b
  (next₃, prev₃)

/-- The links after `moveFront`, for a node that is neither the sentinel nor its own successor:
`b`'s predecessor now points to `b`'s successor and back, the sentinel to `b`, and `b` to `f`,
the node that followed the sentinel once `b` was unlinked. -/
theorem moveFront_eq {h b : P} (hyb : next b ≠ b) (hbh : b ≠ h) :
    moveFront next prev h b =
      (Function.update (Function.update (Function.update next (prev b) (next b)) b
          (if prev b = h then next b else next h)) h b,
        Function.update (Function.update (Function.update prev (next b) (prev b)) b h)
          (if prev b = h then next b else next h) b) := by
  have hprev₁ : Function.update prev (next b) (prev b) b = prev b :=
    Function.update_of_ne (Ne.symm hyb) _ _
  have hnext₁ : Function.update next (prev b) (next b) h = if prev b = h then next b else next h := by
    by_cases hx : prev b = h
    · simp [hx]
    · simp [Function.update_of_ne (Ne.symm hx), hx]
  simp only [moveFront, hprev₁, Function.update_of_ne hbh.symm, hnext₁]

/-- Moving `b` to the front of a circular list with sentinel `h`: the list becomes `b`
followed by the other nodes in their order. -/
theorem Seg.moveFront {h b : P} {l₁ l₂ : List P} (hs : Seg next prev h (l₁ ++ b :: l₂) h)
    (hnd : (h :: (l₁ ++ b :: l₂)).Nodup) :
    Seg (moveFront next prev h b).1 (moveFront next prev h b).2 h (b :: (l₁ ++ l₂)) h := by
  obtain ⟨hA, hB⟩ := seg_append.mp hs
  simp only [List.nodup_cons, List.mem_append, List.mem_cons, not_or, List.nodup_append] at hnd
  obtain ⟨⟨hhl₁, hhb, hhl₂⟩, hl₁, ⟨hbl₂, hl₂⟩, hdis⟩ := hnd
  have hbl₁ : b ∉ l₁ := fun hb => hdis b hb b (Or.inl rfl) rfl
  have hdis' : ∀ z ∈ l₁, z ∉ l₂ := fun z hz hz' => hdis z hz z (Or.inr hz') rfl
  -- the successor `y` of `b` lies in `l₂ ++ [h]`
  have hy : next b ∈ l₂ ++ [h] := hB.next_mem
  have hyb : next b ≠ b := fun e => by
    rw [e] at hy
    simp only [List.mem_append, List.mem_singleton] at hy
    exact hy.elim hbl₂ (fun e => hhb e.symm)
  have hyl₁ : ∀ z ∈ l₁, next b ≠ z := fun z hz e => by
    rw [e] at hy
    simp only [List.mem_append, List.mem_singleton] at hy
    exact hy.elim (hdis' z hz) (fun e => hhl₁ (e ▸ hz))
  rw [moveFront_eq hyb (Ne.symm hhb)]
  rcases List.eq_nil_or_concat l₁ with rfl | ⟨l₁', a, rfl⟩
  · -- `b` is first already: the links of the others are unchanged
    obtain ⟨hhn, hbp⟩ := hA
    have hpy : prev (next b) = b := hB.first
    refine ⟨by simp, by simp [hbp, hyb.symm], ?_⟩
    rw [List.nil_append]
    refine hB.congr (fun z hz => ?_) (fun z hz => ?_)
    · rcases List.mem_cons.mp hz with rfl | hz
      · simp [hbp, Ne.symm hhb]
      · have hzh : z ≠ h := fun e => hhl₂ (e ▸ hz)
        have hzb : z ≠ b := fun e => hbl₂ (e ▸ hz)
        simp [hzh, hzb, hbp]
    · have hzb : z ≠ b := by
        rintro rfl
        simp only [List.mem_append, List.mem_singleton] at hz
        exact hz.elim hbl₂ (fun e => hhb e.symm)
      by_cases hzy : z = next b
      · subst hzy
        simp [hbp, hpy]
      · simp [hzb, hzy, hbp]
  · -- `b` followed `a`: now `a` points past `b`, and `b` to the old first node `next h`
    simp only [List.concat_eq_append] at hA hl₁ hbl₁ hdis' hhl₁ hyl₁ ⊢
    obtain ⟨hA₁, hab, hba⟩ := seg_append.mp hA
    have hal₁ : a ∈ l₁' ++ [a] := by simp
    have hah : a ≠ h := fun e => hhl₁ (e ▸ hal₁)
    have hal₂ : a ∉ l₂ := hdis' a hal₁
    have hab' : a ≠ b := fun e => hbl₁ (e ▸ hal₁)
    have haya : next b ≠ a := hyl₁ a hal₁
    have hf : next h ∈ l₁' ++ [a] := by simpa using hA₁.next_mem
    have hfh : next h ≠ h := fun e => hhl₁ (e ▸ hf)
    have hfb : next h ≠ b := fun e => hbl₁ (e ▸ hf)
    have hfl₂ : ∀ z, z ∈ l₂ ++ [h] → z ≠ next h := by
      intro z hz e
      simp only [List.mem_append, List.mem_singleton] at hz
      rcases hz with hz | rfl
      · exact hdis' _ hf (e ▸ hz)
      · exact hfh e.symm
    simp only [hba, if_neg hah]
    refine ⟨by simp, by simp [Ne.symm hfb], ?_⟩
    rw [List.append_assoc, List.singleton_append, seg_append]
    constructor
    · -- the old first node now follows `b`
      cases l₁' with
      | nil =>
        obtain ⟨hha, hah'⟩ := hA₁
        refine ⟨by simp [Ne.symm hhb, hha], ?_⟩
        rw [← hha]
        simp
      | cons c l₁'' =>
        obtain ⟨hhc, hch, hc⟩ := hA₁
        simp only [List.cons_append, List.nodup_cons, List.mem_append, List.mem_singleton,
          not_or] at hl₁
        obtain ⟨⟨hcl₁'', hca⟩, hl₁''⟩ := hl₁
        refine ⟨by simp [Ne.symm hhb, hhc], by simp [hhc], hc.congr (fun z hz => ?_)
          (fun z hz => ?_)⟩
        · have hzl₁ : z ∈ c :: l₁'' ++ [a] :=
            ((List.sublist_append_left l₁'' [a]).cons₂ c).subset hz
          have hza : z ≠ a := by
            rintro rfl
            simp only [List.mem_cons] at hz
            rcases hz with rfl | hz
            · exact hca rfl
            · simp only [List.nodup_append, List.mem_singleton] at hl₁''
              exact hl₁''.2.2 _ hz _ rfl rfl
          have hzh : z ≠ h := fun e => hhl₁ (e ▸ hzl₁)
          have hzb : z ≠ b := fun e => hbl₁ (e ▸ hzl₁)
          simp [hzh, hzb, hza]
        · have hzl₁ : z ∈ c :: l₁'' ++ [a] := List.mem_cons_of_mem c hz
          have hzc : z ≠ c := by
            rintro rfl
            simp only [List.mem_append, List.mem_singleton] at hz
            exact hz.elim hcl₁'' hca
          have hzb : z ≠ b := fun e => hbl₁ (e ▸ hzl₁)
          have hzy : z ≠ next b := fun e => hyl₁ z hzl₁ e.symm
          simp [hhc, hzc, hzb, hzy]
    · -- `a` now points to `b`'s old successor
      cases l₂ with
      | nil =>
        obtain ⟨hbh, hhb'⟩ := hB
        refine ⟨by simp [hah, hab', hbh], ?_⟩
        simp [hfh.symm, hhb, hbh]
      | cons d l₂' =>
        obtain ⟨hbd, hdb, hd⟩ := hB
        simp only [List.nodup_cons] at hl₂
        have hdf : d ≠ next h := hfl₂ d (by simp)
        have hdb' : d ≠ b := fun e => hbl₂ (e ▸ List.mem_cons_self)
        refine ⟨by simp [hah, hab', hbd], by simp [hdf, hdb', hbd], hd.congr (fun z hz => ?_)
          (fun z hz => ?_)⟩
        · have hzl₂ : z ∈ d :: l₂' := hz
          have hzh : z ≠ h := fun e => hhl₂ (e ▸ hzl₂)
          have hzb : z ≠ b := fun e => hbl₂ (e ▸ hzl₂)
          have hza : z ≠ a := fun e => hal₂ (e ▸ hzl₂)
          simp [hzh, hzb, hza]
        · have hzf : z ≠ next h := hfl₂ z (List.mem_cons_of_mem d hz)
          have hzb : z ≠ b := by
            rintro rfl
            simp only [List.mem_append, List.mem_singleton] at hz
            exact hz.elim (fun h' => hbl₂ (List.mem_cons_of_mem _ h')) (fun e => hhb e.symm)
          have hzd : z ≠ d := by
            rintro rfl
            simp only [List.mem_append, List.mem_singleton] at hz
            exact hz.elim hl₂.1 (fun e => hhl₂ (e ▸ List.mem_cons_self))
          simp [hzf, hzb, hzd, hbd]

/-! ## Positions -/

/-- Moving `b` to the front keeps the order of the other nodes. -/
theorem idxOf_moveFront_lt_iff {b x y : P} {l₁ l₂ : List P} (hx : x ≠ b) (hy : y ≠ b) :
    (b :: (l₁ ++ l₂)).idxOf x < (b :: (l₁ ++ l₂)).idxOf y ↔
      (l₁ ++ b :: l₂).idxOf x < (l₁ ++ b :: l₂).idxOf y := by
  rw [List.idxOf_cons_ne _ (Ne.symm hx), List.idxOf_cons_ne _ (Ne.symm hy)]
  by_cases hx₁ : x ∈ l₁ <;> by_cases hy₁ : y ∈ l₁
  · simp only [List.idxOf_append_of_mem hx₁, List.idxOf_append_of_mem hy₁, Nat.succ_lt_succ_iff]
  · rw [List.idxOf_append_of_mem hx₁, List.idxOf_append_of_notMem hy₁,
      List.idxOf_append_of_mem hx₁, List.idxOf_append_of_notMem hy₁,
      List.idxOf_cons_ne _ (Ne.symm hy)]
    have := List.idxOf_lt_length_of_mem hx₁
    omega
  · rw [List.idxOf_append_of_notMem hx₁, List.idxOf_append_of_mem hy₁,
      List.idxOf_append_of_notMem hx₁, List.idxOf_append_of_mem hy₁,
      List.idxOf_cons_ne _ (Ne.symm hx)]
    have := List.idxOf_lt_length_of_mem hy₁
    omega
  · rw [List.idxOf_append_of_notMem hx₁, List.idxOf_append_of_notMem hy₁,
      List.idxOf_append_of_notMem hx₁, List.idxOf_append_of_notMem hy₁,
      List.idxOf_cons_ne _ (Ne.symm hx), List.idxOf_cons_ne _ (Ne.symm hy)]
    omega

/-- A node before the first node satisfying `pred` does not satisfy it. -/
theorem not_of_idxOf_lt_find {pred : P → Bool} {l : List P} {a x : P} (hnd : l.Nodup)
    (hfind : l.find? pred = some a) (hx : x ∈ l) (hlt : l.idxOf x < l.idxOf a) : pred x = false := by
  obtain ⟨-, as, bs, rfl, has⟩ := List.find?_eq_some_iff_append.mp hfind
  have hxa : x ∈ as := by
    by_contra hxa
    have ha : a ∉ as := fun ha => (List.nodup_append.mp hnd).2.2 a ha a List.mem_cons_self rfl
    rw [List.idxOf_append_of_notMem hxa, List.idxOf_append_of_notMem ha,
      List.idxOf_cons_self] at hlt
    omega
  simpa using has x hxa

/-- The first node satisfying `pred` comes before every other node satisfying it. -/
theorem idxOf_find_lt {pred : P → Bool} {l : List P} {a x : P} (hnd : l.Nodup)
    (hfind : l.find? pred = some a) (hx : x ∈ l) (hxa : x ≠ a) (hp : pred x = true) :
    l.idxOf a < l.idxOf x := by
  rcases Nat.lt_or_ge (l.idxOf x) (l.idxOf a) with hlt | hle
  · simp [not_of_idxOf_lt_find hnd hfind hx hlt] at hp
  · exact Nat.lt_of_le_of_ne hle fun heq => hxa ((List.idxOf_inj hx).mp heq.symm)

end DList
