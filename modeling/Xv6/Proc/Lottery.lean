import Xv6.Proc.Step
import Xv6.Lib.Cumul

/-!
# The lottery draw

`get_random(0, total_tickets)` keeps fifteen bits of the generator, `(seed >> 16) & 0x7FFF`, and
reduces them modulo the ticket total: the winning ticket is below 32768 whatever the seed. When the
first RUNNABLE slot holds more than 32767 tickets (`sys_set_tickets` accepts any positive `int`), it
wins every draw and no other process is ever dispatched.

* `getRandom_fst_le` : the draw is in `[0, 32767]` for every seed and range;
* `foldl_lotteryMetrics_sched` : the metrics loop keeps every slot's state and tickets;
* `pickFrom_eq_of_find` : the selection loop stops at the first RUNNABLE slot that takes the count
  past the winning ticket;
* `lotteryRound_picks_first` : a first RUNNABLE slot with more than 32767 tickets is picked by
  every round, for every seed;
* `lottery_starves_second_slot` : a reachable table of the lottery build with two RUNNABLE
  processes, one of which no seed lets the lottery dispatch;
* `pickFrom_eq_pick` : with no `int` overflow, the selection loop is `Cumul.pick` over the
  RUNNABLE slots with their tickets as weights;
* `lottery_pick_interval` : when the RUNNABLE tickets are positive and sum to at most `INT_MAX`,
  every winning ticket below the sum selects the one slot whose interval holds it, and each slot
  is selected by as many winning tickets as it has tickets.
-/

namespace Xv6

/-! ## The generator -/

theorem toInt_toInt32_of_lt {y : UInt32} (h : y.toNat < 2 ^ 31) : y.toInt32.toInt = y.toNat := by
  rw [← Int32.toInt_toBitVec, UInt32.toBitVec_toInt32, BitVec.toInt_eq_toNat_of_lt (by simp; omega)]
  simp

theorem getRandom_fst_le (m : Int32) (seed : UInt32) :
    0 ≤ (getRandom 0 m seed).1.toInt ∧ (getRandom 0 m seed).1.toInt ≤ 32767 := by
  unfold getRandom
  simp only
  generalize 1664525 * seed + 1013904223 = x
  generalize hr : x >>> 16 &&& 0x7FFF = r
  -- the mask leaves fifteen bits, and the reduction modulo the range only lowers them
  have h1 : r.toNat ≤ 32767 := by
    rw [← hr, UInt32.toNat_and]
    exact le_trans Nat.and_le_right (by decide)
  have h2 : (r % (m - 0).toUInt32 + (0 : Int32).toUInt32).toNat ≤ 32767 := by
    have h0 : (0 : Int32).toUInt32 = 0 := rfl
    rw [h0, UInt32.add_zero, UInt32.toNat_mod]
    exact le_trans (Nat.mod_le _ _) h1
  rw [toInt_toInt32_of_lt (by omega)]
  omega

/-! ## The metrics loop and the ticket sum -/

theorem lotteryComplete_sched (s : Sys) (i j : Fin NPROC) :
    ((lotteryComplete s i).proc j).state = (s.proc j).state ∧
      ((lotteryComplete s i).proc j).tickets = (s.proc j).tickets := by
  unfold lotteryComplete
  split
  · by_cases hj : j = i
    · subst hj; simp
    · simp [hj]
  · exact ⟨rfl, rfl⟩

theorem lotteryReady_sched (s : Sys) (i j : Fin NPROC) :
    ((lotteryReady s i).proc j).state = (s.proc j).state ∧
      ((lotteryReady s i).proc j).tickets = (s.proc j).tickets := by
  unfold lotteryReady
  split
  · by_cases hj : j = i
    · subst hj; simp
    · simp [hj]
  · exact ⟨rfl, rfl⟩

/-- The metrics loop changes metrics and `perf_data` only: every slot keeps its state and tickets. -/
theorem foldl_lotteryMetrics_sched (ps : List (Fin NPROC)) :
    ∀ (s : Sys) (j : Fin NPROC), ((ps.foldl lotteryMetrics s).proc j).state = (s.proc j).state ∧
      ((ps.foldl lotteryMetrics s).proc j).tickets = (s.proc j).tickets ∧
      (ps.foldl lotteryMetrics s).seed = s.seed := by
  induction ps with
  | nil => intro s j; exact ⟨rfl, rfl, rfl⟩
  | cons i ps ih =>
    intro s j
    obtain ⟨h1, h2, h3⟩ := ih (lotteryMetrics s i) j
    have hr := lotteryReady_sched (lotteryComplete s i) i j
    have hc := lotteryComplete_sched s i j
    have hseed : (lotteryMetrics s i).seed = s.seed := by
      unfold lotteryMetrics lotteryReady lotteryComplete
      split_ifs <;> rfl
    simp only [List.foldl_cons]
    refine ⟨?_, ?_, ?_⟩
    · rw [h1]; unfold lotteryMetrics; rw [hr.1, hc.1]
    · rw [h2]; unfold lotteryMetrics; rw [hr.2, hc.2]
    · rw [h3, hseed]

/-- The ticket sum reads only states and tickets. -/
theorem totalTickets_congr {s t : Sys}
    (h : ∀ j, (t.proc j).state = (s.proc j).state ∧ (t.proc j).tickets = (s.proc j).tickets) :
    totalTickets t = totalTickets s := by
  have hs : ∀ j, (t.proc j).state = (s.proc j).state := fun j => (h j).1
  have ht : ∀ j, (t.proc j).tickets = (s.proc j).tickets := fun j => (h j).2
  simp only [totalTickets, hs, ht]

/-! ## The selection loop -/

/-- The selection loop stops at the first RUNNABLE slot of `ps` when that slot alone takes the
count past the winning ticket. -/
theorem pickFrom_eq_of_find (s : Sys) (w : Int32) :
    ∀ (ps : List (Fin NPROC)) (count : Int32) (j : Fin NPROC),
      ps.find? (fun i => (s.proc i).state == .runnable) = some j →
      w < count + (s.proc j).tickets → pickFrom s w ps count = some j
  | [], _, _, h, _ => by simp at h
  | i :: ps, count, j, h, hw => by
    by_cases hi : (s.proc i).state = .runnable
    · have hij : i = j := by simpa [List.find?_cons, hi] using h
      subst hij
      simp [pickFrom, hi, hw]
    · have hps : ps.find? (fun i => (s.proc i).state == .runnable) = some j := by
        simpa [List.find?_cons, hi] using h
      rw [pickFrom, if_neg hi]
      exact pickFrom_eq_of_find s w ps count j hps hw

/-- When the first RUNNABLE slot holds more than 32767 tickets, every round of the lottery, whatever
the generator's state, dispatches it. -/
theorem lotteryRound_picks_first (c : Fin NCPU) (s : Sys) (j : Fin NPROC)
    (hj : Scan.firstIdx (fun i => (s.proc i).state == .runnable) = some j)
    (hbig : 32767 < (s.proc j).tickets.toInt) (htot : 0 < totalTickets s) :
    (lotteryRound c s).2 = some j := by
  unfold lotteryRound
  generalize hs1 : (List.finRange NPROC).foldl lotteryMetrics s = s1
  have hkeep := foldl_lotteryMetrics_sched (List.finRange NPROC) s
  rw [hs1] at hkeep
  have htot1 : totalTickets s1 = totalTickets s :=
    totalTickets_congr fun k => ⟨(hkeep k).1, (hkeep k).2.1⟩
  simp only [htot1, if_pos htot]
  obtain ⟨hw0, hw⟩ := getRandom_fst_le (totalTickets s) s1.seed
  generalize getRandom 0 (totalTickets s) s1.seed = g at hw0 hw
  obtain ⟨w, sd⟩ := g
  simp only
  have hproc : ({ s1 with seed := sd } : Sys).proc = s1.proc := rfl
  -- the table after the metrics loop, with the new seed, has the same first RUNNABLE slot
  have hfind : (List.finRange NPROC).find?
      (fun i => ({ s1 with seed := sd }.proc i).state == .runnable) = some j := by
    have hP : (fun i => ({ s1 with seed := sd }.proc i).state == .runnable) =
        (fun i => (s.proc i).state == .runnable) := by
      funext i
      rw [hproc, (hkeep i).1]
    rw [hP]
    exact hj
  have hlt : w < 0 + ({ s1 with seed := sd }.proc j).tickets := by
    rw [Int32.zero_add, hproc, (hkeep j).2.1, Int32.lt_iff_toInt_lt]
    simp only at hw
    omega
  rw [pickFrom_eq_of_find _ w _ 0 j hfind hlt]

/-! ## A table the lottery never serves fairly -/

/-- `initproc` is dispatched, forks a child (which copies its 10 tickets), raises its own tickets to
40000, and is preempted. -/
def lotteryRun : List Event :=
  [.sched 0, .fork 0, .forkCopy 0, .forkRun 0, .setTickets 0 40000, .tick 0, .yield 0]

set_option maxRecDepth 4000 in
theorem lottery_starves_second_slot :
    ∃ s, Run.run (step .lottery) (init 1) lotteryRun = some s ∧ (s.proc 0).state = .runnable ∧
      (s.proc 1).state = .runnable ∧
      ∀ seed : UInt32, (lotteryRound 0 { s with seed := seed }).2 ≠ some 1 := by
  obtain ⟨s, hs, hp⟩ := @Run.exists_of_map_eq_some_true _ _ (step .lottery) (init 1) lotteryRun
    (fun s => (s.proc 0).state == .runnable && (s.proc 1).state == .runnable &&
      Scan.firstIdx (fun i => (s.proc i).state == .runnable) == some 0 &&
      decide (32767 < (s.proc 0).tickets.toInt) && decide (0 < totalTickets s)) (by decide)
  simp only [Bool.and_eq_true, beq_iff_eq, decide_eq_true_eq] at hp
  obtain ⟨⟨⟨⟨h0, h1⟩, hfirst⟩, hbig⟩, htot⟩ := hp
  refine ⟨s, hs, h0, h1, fun seed => ?_⟩
  rw [lotteryRound_picks_first 0 { s with seed := seed } 0 hfirst hbig htot]
  decide

/-! ## Every draw below the total -/

/-- An `int` sum of two non-negative values that stays below `INT_MAX` does not wrap. -/
theorem toInt_add_of_nonneg {a b : Int32} (ha : 0 ≤ a.toInt) (hb : 0 ≤ b.toInt)
    (h : a.toInt + b.toInt ≤ 2147483647) : (a + b).toInt = a.toInt + b.toInt := by
  rw [Int32.toInt_add, Int.bmod_eq_of_le (by omega) (by omega)]

/-- The RUNNABLE slots in table order: the slots the ticket loops count. -/
def runnableSlots (s : Sys) : List (Fin NPROC) :=
  (List.finRange NPROC).filter fun i => (s.proc i).state = .runnable

/-- The tickets of slot `i` as a weight. -/
def ticketWeight (s : Sys) (i : Fin NPROC) : ℕ := (s.proc i).tickets.toInt.toNat

open Finset in
/-- The tickets of the RUNNABLE slots. -/
def runnableTickets (s : Sys) : Int :=
  ∑ i ∈ univ.filter (fun i => (s.proc i).state = .runnable), (s.proc i).tickets.toInt

open Finset in
/-- The tickets of the RUNNABLE slots ahead of `p`: where the interval of `p` starts. -/
def ticketsBefore (s : Sys) (p : Fin NPROC) : Int :=
  ∑ i ∈ univ.filter (fun i => i < p ∧ (s.proc i).state = .runnable), (s.proc i).tickets.toInt

section Draw

variable {s : Sys}

/-- The running sum of the ticket loop over `ps` from `t`, when it stays within `int`. -/
theorem foldl_tickets_toInt (hpos : ∀ i, (s.proc i).state = .runnable → 0 ≤ (s.proc i).tickets.toInt) :
    ∀ (ps : List (Fin NPROC)) (t : Int32), 0 ≤ t.toInt →
      t.toInt + (((ps.filter fun i => (s.proc i).state = .runnable).map (ticketWeight s)).sum : Int) ≤
        2147483647 →
      (ps.foldl (fun t i => if (s.proc i).state = .runnable then t + (s.proc i).tickets else t)
        t).toInt = t.toInt + (((ps.filter fun i => (s.proc i).state = .runnable).map (ticketWeight s)).sum : Int)
  | [], t, _, _ => by simp
  | i :: ps, t, ht, hsum => by
    by_cases hi : (s.proc i).state = .runnable
    · have hti := hpos i hi
      have hw : (ticketWeight s i : Int) = (s.proc i).tickets.toInt := Int.toNat_of_nonneg hti
      rw [List.filter_cons_of_pos (by simpa using hi), List.map_cons, List.sum_cons] at hsum ⊢
      rw [Nat.cast_add] at hsum ⊢
      rw [List.foldl_cons, if_pos hi]
      have hrest : 0 ≤ (((ps.filter fun i => (s.proc i).state = .runnable).map (ticketWeight s)).sum : Int) :=
        Int.natCast_nonneg _
      have hadd := toInt_add_of_nonneg ht hti (by omega)
      rw [foldl_tickets_toInt hpos ps _ (by omega) (by omega), hadd]
      omega
    · rw [List.filter_cons_of_neg (by simpa using hi)] at hsum ⊢
      rw [List.foldl_cons, if_neg hi]
      exact foldl_tickets_toInt hpos ps t ht hsum

/-- With no `int` overflow, the selection loop from `count` is `Cumul.pick` over the RUNNABLE
slots, with the tickets as weights. -/
theorem pickFrom_eq_pick (w : Int32) (hw : 0 ≤ w.toInt)
    (hpos : ∀ i, (s.proc i).state = .runnable → 0 ≤ (s.proc i).tickets.toInt) :
    ∀ (ps : List (Fin NPROC)) (count : Int32), 0 ≤ count.toInt →
      count.toInt + (((ps.filter fun i => (s.proc i).state = .runnable).map (ticketWeight s)).sum : Int) ≤
        2147483647 →
      pickFrom s w ps count = Cumul.pick (ticketWeight s) w.toInt.toNat
        (ps.filter fun i => (s.proc i).state = .runnable) count.toInt.toNat
  | [], _, _, _ => rfl
  | i :: ps, count, hc, hsum => by
    by_cases hi : (s.proc i).state = .runnable
    · -- the count passes the tickets of `i`, within `int`
      have hti := hpos i hi
      have hwt : (ticketWeight s i : Int) = (s.proc i).tickets.toInt := Int.toNat_of_nonneg hti
      rw [List.filter_cons_of_pos (by simpa using hi), List.map_cons, List.sum_cons] at hsum
      rw [List.filter_cons_of_pos (by simpa using hi), pickFrom, if_pos hi, Cumul.pick]
      rw [Nat.cast_add] at hsum
      have hrest : 0 ≤ (((ps.filter fun i => (s.proc i).state = .runnable).map (ticketWeight s)).sum : Int) :=
        Int.natCast_nonneg _
      have hadd := toInt_add_of_nonneg hc hti (by omega)
      have hlt : (count + (s.proc i).tickets > w) ↔
          w.toInt.toNat < count.toInt.toNat + ticketWeight s i := by
        rw [gt_iff_lt, Int32.lt_iff_toInt_lt, hadd]
        omega
      by_cases hgt : count + (s.proc i).tickets > w
      · rw [if_pos hgt, if_pos (hlt.mp hgt)]
      · rw [if_neg hgt, if_neg (fun h => hgt (hlt.mpr h)),
          pickFrom_eq_pick w hw hpos ps _ (by omega) (by omega), hadd]
        congr 1
        omega
    · rw [List.filter_cons_of_neg (by simpa using hi), pickFrom, if_neg hi]
      rw [List.filter_cons_of_neg (by simpa using hi)] at hsum
      exact pickFrom_eq_pick w hw hpos ps count hc hsum

theorem runnableSlots_pairwise (s : Sys) : (runnableSlots s).Pairwise (· < ·) :=
  (List.pairwise_lt_finRange NPROC).filter _

theorem mem_runnableSlots {p : Fin NPROC} : p ∈ runnableSlots s ↔ (s.proc p).state = .runnable := by
  simp [runnableSlots]

/-- The RUNNABLE tickets, as the loops count them. -/
theorem runnableTickets_eq (hpos : ∀ i, (s.proc i).state = .runnable → 0 ≤ (s.proc i).tickets.toInt) :
    runnableTickets s = (((runnableSlots s).map (ticketWeight s)).sum : Int) := by
  have hnd : (runnableSlots s).Nodup := (runnableSlots_pairwise s).imp fun h => ne_of_lt h
  have hset : (runnableSlots s).toFinset = Finset.univ.filter fun i => (s.proc i).state = .runnable := by
    ext i
    simp [runnableSlots]
  rw [← List.sum_toFinset _ hnd, runnableTickets, Nat.cast_sum, hset]
  refine Finset.sum_congr rfl fun i hi => ?_
  rw [Finset.mem_filter] at hi
  exact (Int.toNat_of_nonneg (hpos i hi.2)).symm

/-- The interval of a RUNNABLE slot starts where the loop's count reaches it. -/
theorem ticketsBefore_eq (hpos : ∀ i, (s.proc i).state = .runnable → 0 ≤ (s.proc i).tickets.toInt)
    {p : Fin NPROC} (hp : (s.proc p).state = .runnable) :
    ticketsBefore s p = (Cumul.before (ticketWeight s) (runnableSlots s) p : Int) := by
  have hset : (runnableSlots s).toFinset.filter (· < p) =
      Finset.univ.filter fun i => i < p ∧ (s.proc i).state = .runnable := by
    ext i
    simp [runnableSlots, and_comm]
  rw [Cumul.before_eq_sum_lt (runnableSlots_pairwise s) (mem_runnableSlots.mpr hp), hset,
    ticketsBefore, Nat.cast_sum]
  refine Finset.sum_congr rfl fun i hi => ?_
  rw [Finset.mem_filter] at hi
  exact (Int.toNat_of_nonneg (hpos i hi.2.2)).symm

end Draw

/-- With every RUNNABLE slot holding a ticket and the RUNNABLE tickets summing to at most
`INT_MAX`: the scheduler's `total_tickets` is that sum; every winning ticket `w` in `[0, T)`
selects a RUNNABLE slot (the loop never runs off the table), the one whose interval
`[ticketsBefore, ticketsBefore + tickets)` holds `w`; and each RUNNABLE slot is selected by exactly
as many of the `T` winning tickets as it has tickets. -/
theorem lottery_pick_interval (s : Sys)
    (hpos : ∀ i, (s.proc i).state = .runnable → 1 ≤ (s.proc i).tickets.toInt)
    (hmax : runnableTickets s ≤ 2147483647) :
    (totalTickets s).toInt = runnableTickets s ∧
      (∀ w : Int32, 0 ≤ w.toInt → w.toInt < runnableTickets s →
        ∃ p, pickFrom s w (List.finRange NPROC) 0 = some p ∧ (s.proc p).state = .runnable ∧
          ticketsBefore s p ≤ w.toInt ∧ w.toInt < ticketsBefore s p + (s.proc p).tickets.toInt ∧
          ∀ q, (s.proc q).state = .runnable → ticketsBefore s q ≤ w.toInt →
            w.toInt < ticketsBefore s q + (s.proc q).tickets.toInt → q = p) ∧
      ∀ p, (s.proc p).state = .runnable →
        ((Finset.range (runnableTickets s).toNat).filter fun n =>
          pickFrom s (Int32.ofNat n) (List.finRange NPROC) 0 = some p).card =
            (s.proc p).tickets.toInt.toNat := by
  have hpos0 : ∀ i, (s.proc i).state = .runnable → 0 ≤ (s.proc i).tickets.toInt :=
    fun i hi => le_trans (by decide) (hpos i hi)
  have hT := runnableTickets_eq hpos0
  have hnd : (runnableSlots s).Nodup := (runnableSlots_pairwise s).imp fun h => ne_of_lt h
  have hwt : ∀ i, (s.proc i).state = .runnable → (ticketWeight s i : Int) = (s.proc i).tickets.toInt :=
    fun i hi => Int.toNat_of_nonneg (hpos0 i hi)
  -- below the total the selection loop is `Cumul.pick`
  have hpick : ∀ w : Int32, 0 ≤ w.toInt →
      pickFrom s w (List.finRange NPROC) 0 =
        Cumul.pick (ticketWeight s) w.toInt.toNat (runnableSlots s) 0 := by
    intro w hw
    have := pickFrom_eq_pick w hw hpos0 (List.finRange NPROC) 0 (by simp)
      (by rw [Int32.toInt_zero, Int.zero_add]; unfold runnableSlots at hT; omega)
    rw [this, Int32.toInt_zero, Int.toNat_zero]
    rfl
  refine ⟨?_, fun w hw0 hw => ?_, fun p hp => ?_⟩
  · -- the ticket loop counts the same tickets
    have := foldl_tickets_toInt hpos0 (List.finRange NPROC) 0 (by simp)
      (by rw [Int32.toInt_zero, Int.zero_add]; unfold runnableSlots at hT; omega)
    rw [totalTickets, this, Int32.toInt_zero, Int.zero_add, hT]
    rfl
  · obtain ⟨p, hpk⟩ : ∃ p, Cumul.pick (ticketWeight s) w.toInt.toNat (runnableSlots s) 0 = some p :=
      Cumul.pick_isSome (Nat.zero_le _) (by omega)
    obtain ⟨hmem, h₁, h₂⟩ := (Cumul.pick_eq_some_iff hnd (Nat.zero_le _)).mp hpk
    have hp := mem_runnableSlots.mp hmem
    have hb := ticketsBefore_eq hpos0 hp
    refine ⟨p, by rw [hpick w hw0, hpk], hp, by omega, by have := hwt p hp; omega,
      fun q hq hq₁ hq₂ => ?_⟩
    -- the interval of `q` holds `w` too, so the loop stops at `q`
    have hbq := ticketsBefore_eq hpos0 hq
    have hwq := hwt q hq
    have hpq : Cumul.pick (ticketWeight s) w.toInt.toNat (runnableSlots s) 0 = some q :=
      (Cumul.pick_eq_some_iff hnd (Nat.zero_le _)).mpr ⟨mem_runnableSlots.mpr hq, by omega, by omega⟩
    rw [hpk, Option.some.injEq] at hpq
    exact hpq.symm
  · -- below `T` the winning ticket is its own `int`, and `Cumul.pick` counts
    have hset : ((Finset.range (runnableTickets s).toNat).filter fun n =>
          pickFrom s (Int32.ofNat n) (List.finRange NPROC) 0 = some p) =
        (Finset.range ((runnableSlots s).map (ticketWeight s)).sum).filter fun n =>
          Cumul.pick (ticketWeight s) n (runnableSlots s) 0 = some p := by
      have hTn : (runnableTickets s).toNat = ((runnableSlots s).map (ticketWeight s)).sum := by
        rw [hT, Int.toNat_natCast]
      rw [hTn]
      refine Finset.filter_congr fun n hn => ?_
      rw [Finset.mem_range] at hn
      have hn' : (Int32.ofNat n).toInt = n := Int32.toInt_ofNat_of_lt (by omega)
      rw [hpick _ (by omega), hn', Int.toNat_natCast]
    rw [hset, Cumul.card_pick_eq hnd (mem_runnableSlots.mpr hp)]
    rfl

/-- `initproc` is dispatched, forks a child (which copies its 10 tickets), sets its own tickets to
20, and is preempted: two RUNNABLE slots, with 20 and 10 tickets. -/
def pickRun : List Event :=
  [.sched 0, .fork 0, .forkCopy 0, .forkRun 0, .setTickets 0 20, .tick 0, .yield 0]

set_option maxRecDepth 8000 in
/-- There the total is 30, the draw `25` picks slot 1, whose interval is `[20, 30)`, and slot 1 is
picked by 10 of the 30 draws. -/
theorem lottery_pick_two_slots :
    ∃ s, Run.run (step .lottery) (init 1) pickRun = some s ∧
      (s.proc 0).state = .runnable ∧ (s.proc 1).state = .runnable ∧
      (∀ i, (s.proc i).state = .runnable → 1 ≤ (s.proc i).tickets.toInt) ∧
      runnableTickets s ≤ 2147483647 ∧ (totalTickets s).toInt = 30 ∧
      pickFrom s 25 (List.finRange NPROC) 0 = some 1 ∧
      ((Finset.range 30).filter fun n =>
        pickFrom s (Int32.ofNat n) (List.finRange NPROC) 0 = some 1).card = 10 := by
  obtain ⟨s, hs, hp⟩ := @Run.exists_of_map_eq_some_true _ _ (step .lottery) (init 1) pickRun
    (fun s => (s.proc 0).state == .runnable && (s.proc 1).state == .runnable &&
      (s.proc 1).tickets == 10 &&
      decide (∀ i, (s.proc i).state = .runnable → 1 ≤ (s.proc i).tickets.toInt) &&
      decide (runnableTickets s = 30) && decide (ticketsBefore s 1 = 20)) (by decide +kernel)
  simp only [Bool.and_eq_true, beq_iff_eq, decide_eq_true_eq] at hp
  obtain ⟨⟨⟨⟨⟨h0, h1⟩, ht1⟩, hpos⟩, hT⟩, hb1⟩ := hp
  have hmax : runnableTickets s ≤ 2147483647 := by
    rw [hT]
    decide
  obtain ⟨htot, hsel, hcount⟩ := lottery_pick_interval s hpos hmax
  -- the draw 25 lies in the interval of slot 1, so the slot it selects is slot 1
  obtain ⟨p, hpk, -, -, -, huniq⟩ := hsel 25 (by decide) (by rw [hT]; decide)
  have hp1 : 1 = p := huniq 1 h1 (by rw [hb1]; decide) (by rw [hb1, ht1]; decide)
  refine ⟨s, hs, h0, h1, hpos, hmax, by rw [htot, hT], by rw [hp1]; exact hpk, ?_⟩
  have hc := hcount 1 h1
  rw [hT, ht1] at hc
  exact hc

end Xv6
