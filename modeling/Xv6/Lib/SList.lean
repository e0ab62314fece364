import Mathlib.Logic.Function.Basic
import Mathlib.Data.List.Nodup

/-!
# Null-terminated singly-linked lists

Nodes of a type `P`, each with one link `next : P → Option P` (`none` is the null pointer), and a
head pointer `h : Option P`:

* `Chain next h l` : following `next` from `h` visits the nodes `l` in order and then reaches null;
  `Chain.unique`, `Chain.congr` (a chain depends only on the links of its own nodes);
* `findEnd` : the loop `for (pp = &head; *pp; pp = &(*pp)->next) ;` with fuel, the location (the
  head pointer, or the link of a node) holding the null at the end; `Chain.findEnd` : on a chain of
  at most `fuel` nodes it is the head pointer of an empty list and the last node's link otherwise;
* `Chain.snoc_nil`, `Chain.snoc` : storing a new last node `b` into that location, with
  `next b = none`, gives the chain `l ++ [b]`; a pop, `head := next head`, is `Chain` itself.
-/

namespace SList

variable {P : Type}

/-- Following `next` from `h` visits the nodes `l` in order and then reaches null. -/
def Chain (next : P → Option P) : Option P → List P → Prop
  | h, [] => h = none
  | h, b :: l => h = some b ∧ Chain next (next b) l

variable {next next' : P → Option P}

@[simp] theorem chain_nil {h : Option P} : Chain next h [] ↔ h = none := Iff.rfl

@[simp] theorem chain_cons {h : Option P} {b : P} {l : List P} :
    Chain next h (b :: l) ↔ h = some b ∧ Chain next (next b) l := Iff.rfl

/-- The nodes of a chain are determined by its head. -/
theorem Chain.unique {h : Option P} {l l' : List P} (hl : Chain next h l) (hl' : Chain next h l') :
    l = l' := by
  induction l generalizing h l' with
  | nil =>
    cases l' with
    | nil => rfl
    | cons b' l' => exact absurd (hl.symm.trans hl'.1) (by simp)
  | cons b l ih =>
    cases l' with
    | nil => exact absurd (hl.1.symm.trans hl') (by simp)
    | cons b' l' =>
      obtain rfl : b = b' := Option.some.inj (hl.1.symm.trans hl'.1)
      rw [ih hl.2 hl'.2]

/-- A chain holds under links that agree on its nodes. -/
theorem Chain.congr {h : Option P} {l : List P} (hn : ∀ x ∈ l, next' x = next x)
    (hl : Chain next h l) : Chain next' h l := by
  induction l generalizing h with
  | nil => exact hl
  | cons b l ih =>
    refine ⟨hl.1, ?_⟩
    rw [hn b List.mem_cons_self]
    exact ih (fun x hx => hn x (List.mem_cons_of_mem b hx)) hl.2

/-- The loop `for (pp = &head; *pp; pp = &(*pp)->next) ;`, with fuel for the nodes it may pass:
`pp` is `none` for `&head` and `some x` for `&x->next`, and `v` is `*pp`. It returns the `pp` at
which `*pp` is null, and `none` when the fuel runs out first. -/
def findEnd (next : P → Option P) : Nat → Option P → Option P → Option (Option P)
  | _, pp, none => some pp
  | 0, _, some _ => none
  | fuel + 1, _, some x => findEnd next fuel (some x) (next x)

/-- On a chain, the loop stops at the link of the last node, or at `pp` itself when the chain is
empty. -/
theorem Chain.findEnd {v : Option P} {l : List P} (hl : Chain next v l) {fuel : Nat}
    (hf : l.length ≤ fuel) (pp : Option P) : SList.findEnd next fuel pp v = some (l.getLast?.or pp) := by
  induction l generalizing v pp fuel with
  | nil =>
    rw [chain_nil.mp hl]
    cases fuel <;> rfl
  | cons b l ih =>
    obtain ⟨rfl, hl⟩ := hl
    obtain ⟨fuel, rfl⟩ : ∃ k, fuel = k + 1 := ⟨fuel - 1, by simp at hf; omega⟩
    rw [SList.findEnd, ih hl (by simpa using hf)]
    cases l with
    | nil => rfl
    | cons c l =>
      obtain ⟨z, hz⟩ : ∃ z, (c :: l).getLast? = some z := Option.ne_none_iff_exists'.mp (by simp)
      rw [List.getLast?_cons_cons, hz]
      rfl

/-- Appending to an empty list: the head pointer becomes the new node. -/
theorem Chain.snoc_nil {b : P} (hb : next b = none) : Chain next (some b) [b] :=
  ⟨rfl, hb⟩

/-- Appending after the last node `x`: its link becomes the new node `b`, which links to null, and
the other nodes keep their links. -/
theorem Chain.snoc {h : Option P} {l : List P} {x b : P} (hl : Chain next h (l ++ [x]))
    (hn : ∀ y ∈ l, next' y = next y) (hx : next' x = some b) (hb : next' b = none) :
    Chain next' h (l ++ [x, b]) := by
  induction l generalizing h with
  | nil => exact ⟨hl.1, hx, hb⟩
  | cons y l ih =>
    refine ⟨hl.1, ?_⟩
    rw [hn y List.mem_cons_self]
    exact ih hl.2 fun z hz => hn z (List.mem_cons_of_mem y hz)

end SList
