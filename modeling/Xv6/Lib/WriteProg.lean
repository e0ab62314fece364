import Mathlib.Logic.Function.Basic
import Mathlib.Data.List.TakeDrop

/-!
# Programs of single-address writes, and where they can crash

A memory is a function `α → β`. A `Write` stores at one fixed address a value it may compute from
the memory as it is when the write happens; a program is a list of writes run in order, each
atomic. A crash after `k` writes leaves `run (ws.take k) d`.

* `run_nil`, `run_cons`, `run_append` : running programs in sequence;
* `run_take_append` : a crash inside `xs ++ ys` is a crash inside `xs`, or all of `xs` and a crash
  inside `ys`;
* `run_of_ne` : an address no write of the program names keeps its value;
* `run_invariant` : a property kept by each write holds after every prefix.
-/

namespace WriteProg

variable {α β : Type} [DecidableEq α]

/-- One atomic write: the address, and the value as a function of the memory before the write. -/
structure Write (α β : Type) where
  addr : α
  val : (α → β) → β

/-- The memory after the write `w`. -/
def Write.apply (w : Write α β) (d : α → β) : α → β := Function.update d w.addr (w.val d)

/-- The memory after the program `ws`. -/
def run (ws : List (Write α β)) (d : α → β) : α → β := ws.foldl (fun d w => w.apply d) d

@[simp] theorem run_nil (d : α → β) : run [] d = d := rfl

@[simp] theorem run_cons (w : Write α β) (ws : List (Write α β)) (d : α → β) :
    run (w :: ws) d = run ws (w.apply d) := rfl

theorem run_append (xs ys : List (Write α β)) (d : α → β) :
    run (xs ++ ys) d = run ys (run xs d) := by
  simp [run, List.foldl_append]

theorem run_take_append (xs ys : List (Write α β)) (k : Nat) (d : α → β) :
    run ((xs ++ ys).take k) d = run (ys.take (k - xs.length)) (run (xs.take k) d) := by
  rw [List.take_append, run_append]

@[simp] theorem Write.apply_addr (w : Write α β) (d : α → β) : w.apply d w.addr = w.val d := by
  simp [Write.apply]

theorem Write.apply_of_ne (w : Write α β) (d : α → β) {a : α} (h : a ≠ w.addr) :
    w.apply d a = d a := by
  simp [Write.apply, Function.update_of_ne h]

/-- An address that no write of the program names keeps its value. -/
theorem run_of_ne {a : α} : ∀ (ws : List (Write α β)) (d : α → β), (∀ w ∈ ws, a ≠ w.addr) →
    run ws d a = d a
  | [], _, _ => rfl
  | w :: ws, d, h => by
    rw [run_cons, run_of_ne ws _ fun v hv => h v (List.mem_cons_of_mem w hv),
      w.apply_of_ne d (h w List.mem_cons_self)]

/-- A property of memories that each write of the program keeps holds after every crash point. -/
theorem run_invariant (P : (α → β) → Prop) :
    ∀ (ws : List (Write α β)) (d : α → β), (∀ w ∈ ws, ∀ d, P d → P (w.apply d)) → P d →
      ∀ k, P (run (ws.take k) d)
  | [], _, _, hd, _ => by simpa using hd
  | _ :: _, _, _, hd, 0 => by simpa using hd
  | w :: ws, d, h, hd, k + 1 => by
    rw [List.take_succ_cons, run_cons]
    exact run_invariant P ws _ (fun v hv => h v (List.mem_cons_of_mem w hv))
      (h w List.mem_cons_self d hd) k

end WriteProg
