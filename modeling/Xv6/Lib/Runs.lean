import Mathlib.Data.List.SplitBy

/-!
# Runs of equal keys, scanned left to right

The maximal runs of adjacent elements with equal keys under `f`, each as its first element and
its length, are read off Mathlib's `List.splitBy` (`runs`). A loop that keeps only the first
element of the open run and its length, and closes the run at an element of another key
(`step`, `scan`), computes them:

* `runs_of_same`, `runs_append_cons` : a run of one key, and a run boundary;
* `scan_some`, `scan_none` : the scan from an open run, and from no run, is `runs`.
-/

namespace Xv6

namespace Runs

variable {α β : Type} [DecidableEq β] (f : α → β)

/-- The maximal runs of adjacent elements with equal keys, as first element and length. -/
def runs (l : List α) : List (α × Nat) :=
  (l.splitBy fun x y => f x == f y).filterMap fun g => g.head?.map fun a => (a, g.length)

/-- One element: the run it closes, if any, and the open run after it. -/
def step : Option (α × Nat) → α → Option (α × Nat) × (α × Nat)
  | none, x => (none, (x, 1))
  | some (a, n), x => if f x = f a then (none, (a, n + 1)) else (some (a, n), (x, 1))

/-- The runs closed while scanning `l` from the open run `p`, then the run left open. -/
def scan : Option (α × Nat) → List α → List (α × Nat)
  | p, [] => p.toList
  | p, x :: l => (step f p x).1.toList ++ scan (some (step f p x).2) l

variable {f}

/-- A non-empty list of one key is one run. -/
theorem runs_of_same {a : α} {g : List α} (hg : g.head? = some a) (hsame : ∀ y ∈ g, f y = f a) :
    runs f g = [(a, g.length)] := by
  have hne : g ≠ [] := fun h => by simp [h] at hg
  -- any two elements of `g` have one key, so in particular adjacent ones
  have hchain : g.IsChain fun x y => f x == f y :=
    List.Pairwise.isChain (List.pairwise_of_forall_mem_list fun x hx y hy => by
      simp [hsame x hx, hsame y hy])
  rw [runs, List.splitBy_of_isChain hne hchain, List.filterMap_cons, hg]
  rfl

/-- A run of `a`'s key, then an element of another key: the run ends there. -/
theorem runs_append_cons {a x : α} {g : List α} (l : List α) (hg : g.head? = some a)
    (hsame : ∀ y ∈ g, f y = f a) (hx : f x ≠ f a) :
    runs f (g ++ x :: l) = (a, g.length) :: runs f (x :: l) := by
  have hlast : ∀ y ∈ g.getLast?, (fun x y => f x == f y) y x = false := by
    intro y hy
    simpa [hsame y (List.mem_of_getLast? hy)] using Ne.symm hx
  rw [runs, List.splitBy_append_cons _ hlast, List.filterMap_append, ← runs, ← runs,
    runs_of_same hg hsame]
  rfl

theorem scan_cons (p : Option (α × Nat)) (x : α) (l : List α) :
    scan f p (x :: l) = (step f p x).1.toList ++ scan f (some (step f p x).2) l := rfl

/-- From an open run `g` of one key, the scan is the runs of `g` and the rest. -/
theorem scan_some (l : List α) : ∀ (a : α) (g : List α), g.head? = some a →
    (∀ y ∈ g, f y = f a) → scan f (some (a, g.length)) l = runs f (g ++ l) := by
  induction l with
  | nil =>
    intro a g hg hsame
    rw [List.append_nil, runs_of_same hg hsame]
    rfl
  | cons x l ih =>
    intro a g hg hsame
    rw [scan_cons]
    by_cases hx : f x = f a
    · -- `x` extends the run
      simp only [step, if_pos hx, Option.toList_none, List.nil_append]
      have hg' : (g ++ [x]).head? = some a := by
        cases g with
        | nil => simp at hg
        | cons b g => simpa using hg
      have hsame' : ∀ y ∈ g ++ [x], f y = f a := by
        intro y hy
        rcases List.mem_append.mp hy with hy | hy
        · exact hsame y hy
        · rw [List.mem_singleton.mp hy, hx]
      rw [show g.length + 1 = (g ++ [x]).length by simp, ih a (g ++ [x]) hg' hsame', List.append_assoc,
        List.singleton_append]
    · -- `x` closes the run and opens the next
      simp only [step, if_neg hx, Option.toList_some, List.singleton_append]
      rw [show 1 = [x].length from rfl, ih x [x] rfl (by simp), List.singleton_append,
        runs_append_cons l hg hsame hx]

/-- With no run open, the scan is the runs of the list. -/
theorem scan_none (l : List α) : scan f none l = runs f l := by
  cases l with
  | nil => rfl
  | cons x l =>
    rw [scan_cons]
    simp only [step, Option.toList_none, List.nil_append]
    rw [show 1 = [x].length from rfl, scan_some l x [x] rfl (by simp), List.singleton_append]

end Runs

end Xv6
