import Xv6.User.Sh

/-!
# `sh.c`: `parsecmd` reads the canonical text of a command back

A command tree has a canonical text (`Cmd.text`): words one blank apart, `|` and `;` with a blank
on each side and `&` with one before it, a redirection after what it redirects, and parentheses
where the context binds tighter than the command, so that `|` and `;` nest to the right and `&`
binds tighter than `;`.

* `words`, `wrap`, `redirSym`, `Cmd.text`, `wrapRedirs`, `RedirOk`, `Cmd.WellFormed` : the text,
  and the trees of the command language (at most `MAXARGS - 1` words in a simple command, file
  names that are words, `<` with `O_RDONLY` on fd `0` and `>` with `O_WRONLY|O_CREATE` on fd `1`);
* `WordAt`, `Cmd.Rel` : a tree the parser built against a tree of words: the same shape, and each
  word standing in the buffer from its `q` to its `eq`;
* `parseredirs_text`, `backLoop_text`, `execLoop_words` : the loops on their part of the text;
* `ExecReads`, `PipeReads`, `BackReads`, `LineReads`, `reads` : each level of the parser reads
  the canonical text of every well-formed tree up to a character that level stops at, by
  induction on the tree;
* `cstrAt_nulterminate` : after `nulterminate` every word is the C string at its start;
* `parsecmd_text`, `parsecmd_total_round_trip` : `parsecmd` on the canonical text returns the
  tree, and on any input it returns or panics.
-/

namespace Xv6

namespace Sh

/-! ## The canonical text of a command -/

/-- The words of a simple command, one blank apart. -/
def words : List (List Char) → List Char
  | [] => []
  | w :: ws => w ++ ws.flatMap (' ' :: ·)

/-- `x`, in parentheses unless `b`. -/
def wrap (b : Bool) (x : List Char) : List Char := if b then x else '(' :: x ++ [')']

/-- The symbol of a redirection: `<` for `O_RDONLY`, `>` for any other mode. -/
def redirSym (mode : Int32) : Char := if mode = O_RDONLY then '<' else '>'

/-- A redirection of `file` with `mode`, as it follows what it redirects. -/
def redirText (file : List Char) (mode : Int32) : List Char := ' ' :: redirSym mode :: ' ' :: file

/-- The canonical text of a command where its context binds it at level `k`: `0` for a line or a
block, `1` left of `;` and before `&`, `2` right of `|`, `3` left of `|` and under a redirection.
Words are one blank apart, `|` and `;` have a blank on each side and `&` one before it, a
redirection follows what it redirects, and a command is put in parentheses where its context
binds tighter than it does: `|` and `;` nest to the right, and `&` binds tighter than `;`. -/
def Cmd.text : Cmd (List Char) → Nat → List Char
  | .exec argv, _ => words argv
  | .redir c file mode _, _ => c.text 3 ++ redirText file mode
  | .pipe l r, k => wrap (decide (k ≤ 2)) (l.text 3 ++ [' ', '|', ' '] ++ r.text 2)
  | .back c, k => wrap (decide (k ≤ 1)) (c.text 1 ++ [' ', '&'])
  | .list l r, k => wrap (decide (k = 0)) (l.text 1 ++ [' ', ';', ' '] ++ r.text 0)

/-- Redirections around `c`, the first of `rs` innermost: what `parseredirs` builds. -/
def wrapRedirs {w : Type} (c : Cmd w) : List (w × Int32 × Int32) → Cmd w
  | [] => c
  | (file, mode, fd) :: rs => wrapRedirs (.redir c file mode fd) rs

/-- The text of redirections, in order. -/
def redirsText : List (List Char × Int32 × Int32) → List Char
  | [] => []
  | (file, mode, _) :: rs => redirText file mode ++ redirsText rs

/-- A redirection `parseredirs` builds: a word for the file, and `<` with `O_RDONLY` on fd `0` or
`>` with `O_WRONLY|O_CREATE` on fd `1`. -/
def RedirOk (x : List Char × Int32 × Int32) : Prop :=
  IsWord x.1 ∧ (x.2.1 = O_RDONLY ∧ x.2.2 = 0 ∨ x.2.1 = O_WRONLY ||| O_CREATE ∧ x.2.2 = 1)

instance : DecidablePred RedirOk := fun _ => inferInstanceAs (Decidable (_ ∧ _))

/-- The trees of the command language: at most `MAXARGS - 1` words in a simple command, and
words and redirections as the parser reads them. -/
def Cmd.WellFormed : Cmd (List Char) → Prop
  | .exec argv => argv.length < MAXARGS ∧ ∀ w ∈ argv, IsWord w
  | .redir c file mode fd => c.WellFormed ∧ RedirOk (file, mode, fd)
  | .pipe l r => l.WellFormed ∧ r.WellFormed
  | .list l r => l.WellFormed ∧ r.WellFormed
  | .back c => c.WellFormed

instance Cmd.decWellFormed : (t : Cmd (List Char)) → Decidable t.WellFormed
  | .exec _ => inferInstanceAs (Decidable (_ ∧ _))
  | .redir c _ _ _ =>
    have := Cmd.decWellFormed c
    inferInstanceAs (Decidable (_ ∧ _))
  | .pipe l r =>
    have := Cmd.decWellFormed l
    have := Cmd.decWellFormed r
    inferInstanceAs (Decidable (_ ∧ _))
  | .list l r =>
    have := Cmd.decWellFormed l
    have := Cmd.decWellFormed r
    inferInstanceAs (Decidable (_ ∧ _))
  | .back c => Cmd.decWellFormed c

/-- The word `w` stands in the buffer at `p`: from `p.1` to `p.2`, with a character after it that
ends a word. -/
def WordAt (buf : List Char) (es : Nat) (p : Nat × Nat) (w : List Char) : Prop :=
  IsWord w ∧ p.2 = p.1 + w.length ∧
    ∃ r, ahead buf es p.1 = w ++ r ∧ wordChar (r.headD '\x00') = false

/-- A redirection the parser built, against one of a tree. -/
def RedirAt (buf : List Char) (es : Nat) (x : (Nat × Nat) × Int32 × Int32)
    (y : List Char × Int32 × Int32) : Prop :=
  WordAt buf es x.1 y.1 ∧ x.2 = y.2

/-- `c` and `t` are the same tree but for their words, which are related by `R`. -/
def Cmd.Rel {α β : Type} (R : α → β → Prop) : Cmd α → Cmd β → Prop
  | .exec a, .exec b => List.Forall₂ R a b
  | .redir c f m fd, .redir c' f' m' fd' => c.Rel R c' ∧ R f f' ∧ m = m' ∧ fd = fd'
  | .pipe l r, .pipe l' r' => l.Rel R l' ∧ r.Rel R r'
  | .list l r, .list l' r' => l.Rel R l' ∧ r.Rel R r'
  | .back c, .back c' => c.Rel R c'
  | _, _ => False

/-- What may follow a simple command: the end, `|`, `)`, `&` or `;`. -/
def stopExec : List Char := ['\x00', '|', ')', '&', ';']

/-- What may follow a pipeline. -/
def stopPipe : List Char := ['\x00', ')', '&', ';']

/-- What may follow a pipeline and its `&`s. -/
def stopBack : List Char := ['\x00', ')', ';']

/-- What may follow a line. -/
def stopLine : List Char := ['\x00', ')']

/-- `&` `m` times, each after a blank. -/
def amps (m : Nat) : List Char := (List.replicate m [' ', '&']).flatten

/-! ## Reading the canonical text -/

theorem first_cons {c : Char} {x : List Char} (hc : isWhitespace c = false) : first (c :: x) = c := by
  simp [first, hc]

theorem first_cons_blank {c : Char} {x : List Char} (hc : isWhitespace c = true) :
    first (c :: x) = first x := by
  simp [first, hc]

theorem wordChar_first_word {w y : List Char} (hw : IsWord w) : wordChar (first (w ++ y)) = true := by
  obtain ⟨c, w', rfl⟩ := List.exists_cons_of_ne_nil hw.1
  have hc := hw.2 c List.mem_cons_self
  have hblank : isWhitespace c = false := by
    simp only [wordChar, Bool.and_eq_true, Bool.not_eq_true'] at hc
    exact hc.1.2
  rw [List.cons_append, first_cons hblank]
  exact hc

/-- The head of a text whose first token does not start a word does not continue a word. -/
theorem wordChar_headD {x : List Char} (h : wordChar (first x) = false) :
    wordChar (x.headD '\x00') = false := by
  cases x with
  | nil => rfl
  | cons c x =>
    cases hc : isWhitespace c with
    | true => simp [wordChar, hc]
    | false => rwa [first_cons hc] at h

theorem peek_not_mem {toks : List Char} {c : Char} (h : c ∉ toks) :
    (c != '\x00' && (strchr toks c).isSome) = false := by
  cases hs : (strchr toks c).isSome
  · simp
  · exact absurd (mem_of_strchr_isSome hs) h

theorem not_mem_of_wordChar {toks : List Char} {c : Char} (hc : wordChar c = true)
    (htoks : ∀ d ∈ toks, wordChar d = false) : c ∉ toks := fun hm => by
  rw [htoks c hm] at hc
  exact Bool.false_ne_true hc

theorem stopExec_nonword : ∀ c ∈ stopExec, wordChar c = false ∧ c ≠ '<' ∧ c ≠ '>' := by
  simp [stopExec, wordChar, isWhitespace, isSymbol, strchr, whitespace, symbols]

theorem redirSym_rdonly : redirSym O_RDONLY = '<' := by simp [redirSym]

theorem redirSym_wronly : redirSym (O_WRONLY ||| O_CREATE) = '>' := by decide

/-- `parseredirs` builds the redirection its token and `RedirOk` say. -/
theorem redir_of_sym {cmd : Cmd (Nat × Nat)} {p : Nat × Nat} {m fd : Int32}
    (h : m = O_RDONLY ∧ fd = 0 ∨ m = O_WRONLY ||| O_CREATE ∧ fd = 1) :
    (if redirSym m = '<' then Cmd.redir cmd p O_RDONLY 0
      else if redirSym m = '>' then .redir cmd p (O_WRONLY ||| O_CREATE) 1
      else if redirSym m = '+' then .redir cmd p (O_WRONLY ||| O_CREATE) 1 else cmd) =
      .redir cmd p m fd := by
  rcases h with ⟨rfl, rfl⟩ | ⟨rfl, rfl⟩
  · simp [redirSym_rdonly]
  · simp [redirSym_wronly]

/-- After redirections, a stop character: the last file name ends where the redirections do. -/
theorem wordChar_headD_redirsText {rs : List (List Char × Int32 × Int32)} {rest : List Char}
    (hrest : first rest ∈ stopExec) : wordChar ((redirsText rs ++ rest).headD '\x00') = false := by
  cases rs with
  | nil => exact wordChar_headD (stopExec_nonword _ hrest).1
  | cons y rs =>
    obtain ⟨file, mode, fd⟩ := y
    exact (rfl : wordChar ' ' = false)

section Reads

variable {buf : List Char} {es : Nat} (hes : es = strlen buf)
include hes

/-- A text whose first token is the end is blanks only, as no `NUL` stands before `es`. -/
theorem cursor_nil_of_first {s : Nat} {x : List Char} (h : Cursor buf es s x)
    (hx : first x = '\x00') : x.dropWhile isWhitespace = [] := by
  cases hd : x.dropWhile isWhitespace with
  | nil => rfl
  | cons c l =>
    exfalso
    have hc : c = '\x00' := by rw [first, hd] at hx; exact hx
    have hmem : c ∈ ahead buf es s :=
      (List.dropWhile_suffix isWhitespace).subset (by rw [h, hd]; exact List.mem_cons_self)
    exact nul_not_mem_ahead hes (hc ▸ hmem)

/-- The file of a redirection: its symbol, then the word. -/
theorem gettoken_redirSym {s : Nat} {mode : Int32} {r : List Char} (hs : s ≤ es)
    (h : Cursor buf es s (redirSym mode :: ' ' :: r)) :
    ∃ q s', gettoken buf es s = .ok ⟨redirSym mode, q, q + 1⟩ s' ∧ Cursor buf es s' r := by
  unfold redirSym at h ⊢
  split
  · obtain ⟨q, s', hg, hc⟩ := gettoken_sym hes hs (by simpa [*] using h) (by simp)
    exact ⟨q, s', hg, (cursor_blank rfl).mp hc⟩
  · obtain ⟨q, s', hg, hc⟩ := gettoken_gt hes hs (by simpa [*] using h) (by simp)
    exact ⟨q, s', hg, (cursor_blank rfl).mp hc⟩

/-- A symbol next in the text that `peek` looks for: `peek` finds it, and `gettoken` then takes
it and moves past it. -/
theorem peek_gettoken_sym (toks : List Char) {s : Nat} {c : Char} {r : List Char} (hs : s ≤ es)
    (h : Cursor buf es s (c :: r)) (hc : c ∈ ['|', '(', ')', ';', '&', '<'])
    (htoks : (strchr toks c).isSome = true) :
    peek buf es toks s = .ok true (skipWs buf es s) ∧
      ∃ q s', gettoken buf es (skipWs buf es s) = .ok ⟨c, q, q + 1⟩ s' ∧ Cursor buf es s' r ∧
        s < s' ∧ s' ≤ es := by
  have hne : c ≠ '\x00' := fun h0 => absurd (h0 ▸ hc) (by decide)
  have hblank := (sym_not_blank c (List.mem_append_left ['>'] hc)).1
  have hs1 := skipWs_le_es hes hs
  obtain ⟨q, s', hg, hc'⟩ := gettoken_sym hes hs1 (cursor_skipWs h) hc
  obtain ⟨-, hs'e, -, hadv⟩ := gettoken_progress hes hs1 hg
  have hlt : skipWs buf es s < s' := hadv hne
  refine ⟨?_, q, s', hg, hc', lt_of_le_of_lt (Nat.le_add_right _ _) hlt, hs'e⟩
  rw [peek_cursor hes hs h, first_cons hblank, htoks, bne_iff_ne.mpr hne]
  rfl

/-- `parseredirs` finds no redirection ahead and returns `cmd` past the blanks. -/
theorem parseredirs_none {cmd : Cmd (Nat × Nat)} {x : List Char} {s fuel : Nat} (hs : s ≤ es)
    (h : Cursor buf es s x) (hlt : first x ≠ '<') (hgt : first x ≠ '>') :
    parseredirs buf es (fuel + 1) cmd s = .ok cmd (skipWs buf es s) := by
  apply parseredirs_stop
  rw [peek_cursor hes hs h, peek_not_mem (by simp [hlt, hgt])]

/-- A word next: `peek` for symbols fails. -/
theorem peek_word {toks : List Char} (htoks : ∀ d ∈ toks, d ∈ ['|', '(', ')', ';', '&', '<', '>'])
    {w y : List Char} {s : Nat} (hs : s ≤ es) (hw : IsWord w) (h : Cursor buf es s (w ++ y)) :
    peek buf es toks s = .ok false (skipWs buf es s) := by
  rw [peek_cursor hes hs h, peek_not_mem (not_mem_of_wordChar (wordChar_first_word hw)
    (fun d hd => (sym_not_blank d (htoks d hd)).2))]

/-- A word next: `parseredirs` finds no redirection. -/
theorem parseredirs_word {cmd : Cmd (Nat × Nat)} {w y : List Char} {s fuel : Nat} (hs : s ≤ es)
    (hw : IsWord w) (h : Cursor buf es s (w ++ y)) :
    parseredirs buf es (fuel + 1) cmd s = .ok cmd (skipWs buf es s) := by
  have hfirst := wordChar_first_word (y := y) hw
  exact parseredirs_none hes hs h (fun h => by rw [h] at hfirst; exact absurd hfirst (by decide))
    (fun h => by rw [h] at hfirst; exact absurd hfirst (by decide))

/-- `parseredirs` reads the redirections `rs` and builds them around `cmd`, the first innermost. -/
theorem parseredirs_text (rs : List (List Char × Int32 × Int32)) (hrs : ∀ x ∈ rs, RedirOk x)
    {rest : List Char} (hrest : first rest ∈ stopExec) :
    ∀ fuel cmd s, s ≤ es → es - s < fuel → Cursor buf es s (redirsText rs ++ rest) →
      ∃ rsP s', parseredirs buf es fuel cmd s = .ok (wrapRedirs cmd rsP) s' ∧
        Cursor buf es s' rest ∧ List.Forall₂ (RedirAt buf es) rsP rs := by
  induction rs with
  | nil =>
    intro fuel cmd s hs hf hc
    obtain ⟨fuel, rfl⟩ : ∃ f, fuel = f + 1 := ⟨fuel - 1, by omega⟩
    obtain ⟨-, hlt, hgt⟩ := stopExec_nonword _ hrest
    exact ⟨[], _, parseredirs_none hes hs hc hlt hgt, cursor_skipWs hc, .nil⟩
  | cons x rs ih =>
    obtain ⟨file, mode, fd⟩ := x
    intro fuel cmd s hs hf hc
    obtain ⟨fuel, rfl⟩ : ∃ f, fuel = f + 1 := ⟨fuel - 1, by omega⟩
    obtain ⟨hword, hmode⟩ := hrs _ List.mem_cons_self
    -- ` < file` or ` > file`, then the other redirections
    simp only [redirsText, redirText, List.cons_append, List.append_assoc] at hc
    have hc1 := (cursor_blank rfl).mp hc
    have hsym : isWhitespace (redirSym mode) = false := by unfold redirSym; split <;> rfl
    have hp : peek buf es ['<', '>'] s = .ok true (skipWs buf es s) := by
      rw [peek_cursor hes hs hc1, first_cons hsym]
      unfold redirSym
      split <;> rfl
    obtain ⟨hs1, hs1e, -, -⟩ := peek_progress hes hs hp
    obtain ⟨q1, s2, hg1, hc2⟩ := gettoken_redirSym hes hs1e (cursor_skipWs hc1)
    have hadv := peek_gettoken_advance hes hs hp hg1
    obtain ⟨-, hs2e, -⟩ := gettoken_progress hes hs1e hg1
    have hr : wordChar ((redirsText rs ++ rest).headD '\x00') = false :=
      wordChar_headD_redirsText hrest
    obtain ⟨q, s3, hg2, hq, hc3⟩ := gettoken_word hes hs2e hc2 hword hr
    obtain ⟨hs23, hs3e, -⟩ := gettoken_progress hes hs2e hg2
    obtain ⟨rsP, s', hrun, hc', hall⟩ := ih (fun y hy => hrs y (List.mem_cons_of_mem _ hy)) fuel
      (.redir cmd (q, q + file.length) mode fd) s3 hs3e (by omega) hc3
    refine ⟨((q, q + file.length), mode, fd) :: rsP, s', ?_, hc',
      .cons ⟨⟨hword, rfl, _, hq, hr⟩, rfl⟩ hall⟩
    rw [parseredirs_step hp hg1 hg2 rfl]
    dsimp only
    rw [redir_of_sym hmode]
    exact hrun

/-- `parseline`'s loop reads `m` times `&` and puts as many `backcmd`s around `cmd`. -/
theorem backLoop_text (m : Nat) {rest : List Char} (hrest : first rest ∈ stopBack) :
    ∀ fuel cmd s, s ≤ es → es - s < fuel → Cursor buf es s (amps m ++ rest) →
      ∃ s', backLoop buf es fuel cmd s = .ok (Cmd.back^[m] cmd) s' ∧ Cursor buf es s' rest := by
  induction m with
  | zero =>
    intro fuel cmd s hs hf hc
    obtain ⟨fuel, rfl⟩ : ∃ f, fuel = f + 1 := ⟨fuel - 1, by omega⟩
    simp only [amps, List.replicate_zero, List.flatten_nil, List.nil_append] at hc
    refine ⟨_, backLoop_stop ?_, cursor_skipWs hc⟩
    rw [peek_cursor hes hs hc, peek_not_mem ((by simp [stopBack] : ∀ c ∈ stopBack, c ∉ ['&']) _ hrest)]
  | succ m ih =>
    intro fuel cmd s hs hf hc
    obtain ⟨fuel, rfl⟩ : ∃ f, fuel = f + 1 := ⟨fuel - 1, by omega⟩
    simp only [amps, List.replicate_succ, List.flatten_cons, List.cons_append, List.nil_append]
      at hc
    obtain ⟨hp, q, s2, hg, hc2, hs2, hs2e⟩ :=
      peek_gettoken_sym hes ['&'] hs ((cursor_blank rfl).mp hc) (by simp) rfl
    obtain ⟨s', hrun, hc'⟩ := ih fuel (.back cmd) s2 hs2e (by omega) hc2
    refine ⟨s', ?_, hc'⟩
    rw [backLoop_step hp hg, hrun, Function.iterate_succ_apply]

/-- At a stop character `parseexec`'s loop ends, with what it has. -/
theorem execLoop_rest {argv : List (Nat × Nat)} {ret : Cmd (Nat × Nat)} {rest : List Char}
    {s fuel : Nat} (hs : s ≤ es) (h : Cursor buf es s rest) (hrest : first rest ∈ stopExec) :
    ∃ s', execLoop buf es (fuel + 1) argv ret s = .ok (argv, ret) s' ∧ Cursor buf es s' rest := by
  by_cases h0 : first rest = '\x00'
  · -- the end of the text: `gettoken` returns `0`
    have hnil := cursor_nil_of_first hes h h0
    have hp : peek buf es ['|', ')', '&', ';'] s = .ok false (skipWs buf es s) := by
      rw [peek_cursor hes hs h, h0]
      rfl
    have hc1 : Cursor buf es (skipWs buf es s) [] := by
      have := cursor_skipWs h
      rwa [Cursor, hnil] at this
    obtain ⟨q, s2, hg, hc2⟩ := gettoken_end hes (skipWs_le_es hes hs) hc1
    refine ⟨s2, execLoop_end hp hg rfl, ?_⟩
    rw [Cursor, hnil]
    exact hc2
  · have hp : peek buf es ['|', ')', '&', ';'] s = .ok true (skipWs buf es s) := by
      rw [peek_cursor hes hs h]
      simp only [stopExec, List.mem_cons, List.not_mem_nil, or_false] at hrest
      rcases hrest with h' | h' | h' | h' | h' <;> simp [h', strchr] at h0 ⊢
    exact ⟨_, execLoop_stop hp, cursor_skipWs h⟩

/-- `parseexec`'s loop reads the words of `w :: ws`, then the redirections `rs` after the last, and
stops at the stop character after them. -/
theorem execLoop_words (rs : List (List Char × Int32 × Int32)) (hrs : ∀ x ∈ rs, RedirOk x)
    {rest : List Char} (hrest : first rest ∈ stopExec) (ws : List (List Char)) :
    ∀ w fuel argv s, IsWord w → (∀ v ∈ ws, IsWord v) → s ≤ es → es - s < fuel →
      argv.length + ws.length + 1 < MAXARGS →
      Cursor buf es s (words (w :: ws) ++ redirsText rs ++ rest) →
      ∃ argvP rsP s', execLoop buf es fuel argv (.exec []) s =
          .ok (argv ++ argvP, wrapRedirs (.exec []) rsP) s' ∧ Cursor buf es s' rest ∧
        List.Forall₂ (WordAt buf es) argvP (w :: ws) ∧ List.Forall₂ (RedirAt buf es) rsP rs := by
  -- a word is no stop character, so `peek(ps, es, "|)&;")` fails before each word
  have htoks : ∀ d ∈ ['|', ')', '&', ';'], d ∈ ['|', '(', ')', ';', '&', '<', '>'] := by simp
  induction ws with
  | nil =>
    intro w fuel argv s hw _ hs hf hmax hc
    obtain ⟨fuel, rfl⟩ : ∃ f, fuel = f + 1 := ⟨fuel - 1, by omega⟩
    simp only [words, List.flatMap_nil, List.append_nil, List.append_assoc] at hc
    have hp := peek_word hes htoks hs hw hc
    obtain ⟨hs1, hs1e, -, -⟩ := peek_progress hes hs hp
    -- the last word, then the redirections
    have hr : wordChar ((redirsText rs ++ rest).headD '\x00') = false :=
      wordChar_headD_redirsText hrest
    obtain ⟨q, s2, hg, hq, hc2⟩ := gettoken_word hes hs1e (cursor_skipWs hc) hw hr
    obtain ⟨-, hs2e, -, hadv⟩ := gettoken_progress hes hs1e hg
    have hlt := hadv (show ('a' : Char) ≠ '\x00' by decide)
    obtain ⟨rsP, s3, hredirs, hc3, hall⟩ :=
      parseredirs_text hes rs hrs hrest (es + 1) (.exec []) s2 hs2e (by omega) hc2
    have hprog := progress_parseredirs hes (es + 1) (.exec []) s2 hs2e (by omega)
    rw [hredirs] at hprog
    obtain ⟨fuel, rfl⟩ : ∃ f, fuel = f + 1 := ⟨fuel - 1, by omega⟩
    obtain ⟨s', hstop, hc'⟩ := execLoop_rest hes hprog.2 hc3 hrest
    refine ⟨[(q, q + w.length)], rsP, s', ?_, hc', .cons ⟨hw, rfl, _, hq, hr⟩ .nil, hall⟩
    rw [execLoop_word hp hg rfl (by simp; omega) hredirs]
    exact hstop
  | cons v ws ih =>
    intro w fuel argv s hw hws hs hf hmax hc
    obtain ⟨fuel, rfl⟩ : ∃ f, fuel = f + 1 := ⟨fuel - 1, by omega⟩
    simp only [List.length_cons] at hmax
    simp only [words, List.flatMap_cons, List.append_assoc, List.cons_append] at hc
    have hp := peek_word hes htoks hs hw hc
    obtain ⟨hs1, hs1e, -, -⟩ := peek_progress hes hs hp
    -- a word, then a blank and the next word: no redirection in between
    obtain ⟨q, s2, hg, hq, hc2⟩ := gettoken_word hes hs1e (cursor_skipWs hc) hw rfl
    obtain ⟨-, hs2e, -, hadv⟩ := gettoken_progress hes hs1e hg
    have hlt := hadv (show ('a' : Char) ≠ '\x00' by decide)
    have hc2' := (cursor_blank rfl).mp hc2
    have hv := hws v List.mem_cons_self
    have hredirs : parseredirs buf es (es + 1) (.exec []) s2 = .ok (.exec []) (skipWs buf es s2) :=
      parseredirs_word hes hs2e hv hc2'
    obtain ⟨argvP, rsP, s', hrun, hc', hwords, hall⟩ := ih v fuel (argv ++ [(q, q + w.length)])
      (skipWs buf es s2) hv (fun u hu => hws u (List.mem_cons_of_mem v hu))
      (skipWs_le_es hes hs2e) (by have := Nat.le_add_right s2 0; simp only [skipWs]; omega)
      (by simp; omega) (by
        simp only [words, List.append_assoc]
        exact cursor_skipWs hc2')
    refine ⟨(q, q + w.length) :: argvP, rsP, s', ?_, hc', .cons ⟨hw, rfl, _, hq, rfl⟩ hwords, hall⟩
    rw [execLoop_word hp hg rfl (by simp; omega) hredirs]
    dsimp only
    rw [hrun, List.append_assoc, List.singleton_append]

end Reads

theorem setArgv_wrapRedirs {w : Type} (b : List w) (c : Cmd w) (rs : List (w × Int32 × Int32)) :
    (wrapRedirs c rs).setArgv b = wrapRedirs (c.setArgv b) rs := by
  induction rs generalizing c with
  | nil => rfl
  | cons x rs ih =>
    obtain ⟨file, mode, fd⟩ := x
    exact ih _

theorem rel_wrapRedirs {α β : Type} {R : α → β → Prop} {c : Cmd α} {t : Cmd β}
    {rsP : List (α × Int32 × Int32)} {rs : List (β × Int32 × Int32)} (h : c.Rel R t)
    (hall : List.Forall₂ (fun x y => R x.1 y.1 ∧ x.2 = y.2) rsP rs) :
    (wrapRedirs c rsP).Rel R (wrapRedirs t rs) := by
  induction rs generalizing rsP c t with
  | nil =>
    cases hall
    exact h
  | cons y rs ih =>
    cases hall with
    | cons hxy hall =>
      rename_i x rsP
      obtain ⟨file, mode, fd⟩ := x
      obtain ⟨file', mode', fd'⟩ := y
      obtain ⟨hf, hm⟩ := hxy
      obtain ⟨rfl, rfl⟩ := Prod.mk.inj hm
      show Cmd.Rel R (wrapRedirs (.redir c file mode fd) rsP) (wrapRedirs (.redir t file' mode fd) rs)
      exact ih (show Cmd.Rel R (.redir c file mode fd) (.redir t file' mode fd) from
        ⟨h, hf, rfl, rfl⟩) hall

theorem rel_iterate_back {α β : Type} {R : α → β → Prop} {c : Cmd α} {t : Cmd β} (h : c.Rel R t)
    (m : Nat) : (Cmd.back^[m] c).Rel R (Cmd.back^[m] t) := by
  induction m generalizing c t with
  | zero => exact h
  | succ m ih => exact ih h

theorem stopPipe_sub {c : Char} (h : c ∈ stopPipe) : c ∈ stopExec := by
  simp only [stopPipe, List.mem_cons, List.not_mem_nil, or_false] at h
  rcases h with rfl | rfl | rfl | rfl <;> simp [stopExec]

theorem stopBack_sub {c : Char} (h : c ∈ stopBack) : c ∈ stopPipe := by
  simp only [stopBack, List.mem_cons, List.not_mem_nil, or_false] at h
  rcases h with rfl | rfl | rfl <;> simp [stopPipe]

theorem stopLine_sub {c : Char} (h : c ∈ stopLine) : c ∈ stopBack := by
  simp only [stopLine, List.mem_cons, List.not_mem_nil, or_false] at h
  rcases h with rfl | rfl <;> simp [stopBack]

/-! ## Each level of the parser reads the canonical text

The four levels, each on the canonical text of a tree at its level followed by a character the
level stops at: `parseexec` (with redirections after the text, which it builds around the tree),
`parsepipe`, `parsepipe` and the `&` loop of `parseline` (with `&`s after the text), and
`parseline`. Each returns a tree whose words stand in the buffer where the tree's words are. -/

/-- `parseexec` reads `t`, then the redirections `rs`, up to a stop character of a command. -/
def ExecReads (buf : List Char) (es : Nat) (t : Cmd (List Char)) : Prop :=
  ∀ rs : List (List Char × Int32 × Int32), (∀ x ∈ rs, RedirOk x) → ∀ s rest, s ≤ es →
    Cursor buf es s (t.text 3 ++ redirsText rs ++ rest) → first rest ∈ stopExec →
    ∃ fuel c s', parseexec buf es fuel s = .ok c s' ∧ Cursor buf es s' rest ∧
      c.Rel (WordAt buf es) (wrapRedirs t rs)

/-- `parsepipe` reads `t` up to a stop character of a pipeline. -/
def PipeReads (buf : List Char) (es : Nat) (t : Cmd (List Char)) : Prop :=
  ∀ s rest, s ≤ es → Cursor buf es s (t.text 2 ++ rest) → first rest ∈ stopPipe →
    ∃ fuel c s', parsepipe buf es fuel s = .ok c s' ∧ Cursor buf es s' rest ∧
      c.Rel (WordAt buf es) t

/-- `parsepipe` and the `&` loop of `parseline` read `t` with `m` more `&`s after it. -/
def BackReads (buf : List Char) (es : Nat) (t : Cmd (List Char)) : Prop :=
  ∀ m s rest, s ≤ es → Cursor buf es s (t.text 1 ++ amps m ++ rest) → first rest ∈ stopBack →
    ∃ fuel c1 s1 c s', parsepipe buf es fuel s = .ok c1 s1 ∧
      backLoop buf es (es + 1) c1 s1 = .ok c s' ∧ Cursor buf es s' rest ∧
      c.Rel (WordAt buf es) (Cmd.back^[m] t)

/-- `parseline` reads `t` up to the end or a `)`. -/
def LineReads (buf : List Char) (es : Nat) (t : Cmd (List Char)) : Prop :=
  ∀ s rest, s ≤ es → Cursor buf es s (t.text 0 ++ rest) → first rest ∈ stopLine →
    ∃ fuel c s', parseline buf es fuel s = .ok c s' ∧ Cursor buf es s' rest ∧
      c.Rel (WordAt buf es) t

/-- A redirection: the redirections of the command under it, one more. -/
theorem execReads_redir {c : Cmd (List Char)} {file : List Char} {mode fd : Int32}
    (h : ExecReads buf es c) (hok : RedirOk (file, mode, fd)) :
    ExecReads buf es (.redir c file mode fd) := by
  intro rs hrs s rest hs hc hrest
  refine h ((file, mode, fd) :: rs) (fun x hx => ?_) s rest hs ?_ hrest
  · rcases List.mem_cons.mp hx with rfl | hx
    · exact hok
    · exact hrs x hx
  · simpa only [Cmd.text, redirsText, List.append_assoc] using hc

/-- A `&`: one more for the loop after the command under it. -/
theorem backReads_back {c : Cmd (List Char)} (h : BackReads buf es c) :
    BackReads buf es (.back c) := by
  intro m s rest hs hc hrest
  have hc' : Cursor buf es s (c.text 1 ++ amps (m + 1) ++ rest) := by
    simpa [Cmd.text, wrap, amps, List.replicate_succ, List.append_assoc] using hc
  obtain ⟨fuel, c1, s1, c2, s', hpipe, hloop, hc2, hrel⟩ := h (m + 1) s rest hs hc' hrest
  exact ⟨fuel, c1, s1, c2, s', hpipe, hloop, hc2, by rwa [Function.iterate_succ_apply] at hrel⟩

section Levels

variable {buf : List Char} {es : Nat} (hes : es = strlen buf)
include hes

theorem parsepipe_le {fuel s s' : Nat} {c : Cmd (Nat × Nat)} (hs : s ≤ es)
    (h : parsepipe buf es fuel s = .ok c s') : s ≤ s' ∧ s' ≤ es := by
  have hp := (parse_progress hes (max fuel (4 * (es - s) + 3)) s hs).2.1 (le_max_right _ _)
  rwa [parsepipe_mono h (le_max_left _ _)] at hp

theorem parseexec_le {fuel s s' : Nat} {c : Cmd (Nat × Nat)} (hs : s ≤ es)
    (h : parseexec buf es fuel s = .ok c s') : s ≤ s' ∧ s' ≤ es := by
  have hp := (parse_progress hes (max fuel (4 * (es - s) + 2)) s hs).2.2.1 (le_max_right _ _)
  rwa [parseexec_mono h (le_max_left _ _)] at hp

theorem parseline_le {fuel s s' : Nat} {c : Cmd (Nat × Nat)} (hs : s ≤ es)
    (h : parseline buf es fuel s = .ok c s') : s ≤ s' ∧ s' ≤ es := by
  have hp := (parse_progress hes (max fuel (4 * (es - s) + 4)) s hs).1 (le_max_right _ _)
  rwa [parseline_mono h (le_max_left _ _)] at hp

theorem backLoop_le {fuel s s' : Nat} {c c' : Cmd (Nat × Nat)} (hs : s ≤ es) (hf : es - s < fuel)
    (h : backLoop buf es fuel c s = .ok c' s') : s ≤ s' ∧ s' ≤ es := by
  have hp := progress_backLoop hes fuel c s hs hf
  rwa [h] at hp

/-- A simple command: its words, then the redirections. -/
theorem execReads_exec {argv : List (List Char)} (ht : (Cmd.exec argv).WellFormed) :
    ExecReads buf es (.exec argv) := by
  intro rs hrs s rest hs hc hrest
  obtain ⟨hmax, hwords⟩ := ht
  simp only [Cmd.text, List.append_assoc] at hc
  refine ⟨1, ?_⟩
  cases argv with
  | nil =>
    -- no word: the redirections, then the stop character
    simp only [words, List.nil_append] at hc
    have hfirst : first (redirsText rs ++ rest) ≠ '(' := by
      cases rs with
      | nil =>
        intro h
        change first rest = '(' at h
        rw [h] at hrest
        simp [stopExec] at hrest
      | cons x rs =>
        obtain ⟨file, mode, fd⟩ := x
        simp only [redirsText, redirText, List.cons_append]
        rw [first_cons_blank rfl, first_cons (by unfold redirSym; split <;> rfl)]
        unfold redirSym
        split <;> decide
    have hp : peek buf es ['('] s = .ok false (skipWs buf es s) := by
      rw [peek_cursor hes hs hc, peek_not_mem (by simpa using hfirst)]
    have hs1e := skipWs_le_es hes hs
    obtain ⟨rsP, s2, hredirs, hc2, hall⟩ :=
      parseredirs_text hes rs hrs hrest (es + 1) (.exec []) _ hs1e (by omega) (cursor_skipWs hc)
    have hprog := progress_parseredirs hes (es + 1) (.exec []) _ hs1e (by omega)
    rw [hredirs] at hprog
    obtain ⟨s3, hloop, hc3⟩ : ∃ s', execLoop buf es (es + 1) [] (wrapRedirs (.exec []) rsP) s2 =
        .ok ([], wrapRedirs (.exec []) rsP) s' ∧ Cursor buf es s' rest :=
      execLoop_rest hes hprog.2 hc2 hrest
    refine ⟨_, _, parseexec_words hp hredirs hloop, hc3, ?_⟩
    rw [setArgv_wrapRedirs]
    exact rel_wrapRedirs .nil hall
  | cons w ws =>
    -- the words, and the redirections after the last
    have hw := hwords w List.mem_cons_self
    simp only [words, List.append_assoc] at hc
    have hp : peek buf es ['('] s = .ok false (skipWs buf es s) := peek_word hes (by simp) hs hw hc
    have hs1e := skipWs_le_es hes hs
    have hc1 := cursor_skipWs hc
    have hredirs : parseredirs buf es (es + 1) (.exec []) (skipWs buf es s) =
        .ok (.exec []) (skipWs buf es (skipWs buf es s)) := parseredirs_word hes hs1e hw hc1
    obtain ⟨argvP, rsP, s', hloop, hc', hargv, hall⟩ := execLoop_words hes rs hrs hrest ws w (es + 1)
      [] _ hw (fun v hv => hwords v (List.mem_cons_of_mem w hv)) (skipWs_le_es hes hs1e)
      (by omega) (by simp only [List.length_cons] at hmax; simp; omega)
      (by simp only [words, List.append_assoc]; exact cursor_skipWs hc1)
    refine ⟨_, _, parseexec_words hp hredirs hloop, hc', ?_⟩
    rw [setArgv_wrapRedirs]
    exact rel_wrapRedirs hargv hall

/-- A command in parentheses: `parseblock` reads the line inside, then the redirections. -/
theorem execReads_block {t : Cmd (List Char)} (htext : t.text 3 = '(' :: t.text 0 ++ [')'])
    (h : LineReads buf es t) : ExecReads buf es t := by
  intro rs hrs s rest hs hc hrest
  rw [htext] at hc
  simp only [List.cons_append, List.append_assoc] at hc
  -- `parseexec` peeks at the `(`, then `parseblock` again past the blanks before taking it
  have hp := (peek_gettoken_sym hes ['('] hs hc (by simp) rfl).1
  obtain ⟨hp1, q, s2, hg, hc2, -, hs2e⟩ :=
    peek_gettoken_sym hes ['('] (skipWs_le_es hes hs) (cursor_skipWs hc) (by simp) rfl
  rw [skipWs_skipWs] at hp1 hg
  obtain ⟨fuel, c, s3, hline, hc3, hrel⟩ := h s2 _ hs2e hc2 (by rw [first_cons rfl]; simp [stopLine])
  obtain ⟨hp3, q', s5, hg', hc5, -, hs5e⟩ :=
    peek_gettoken_sym hes [')'] (parseline_le hes hs2e hline).2 hc3 (by simp) rfl
  obtain ⟨rsP, s6, hredirs, hc6, hall⟩ :=
    parseredirs_text hes rs hrs hrest (es + 1) c s5 hs5e (by omega) hc5
  refine ⟨fuel + 2, _, s6, ?_, hc6, rel_wrapRedirs hrel hall⟩
  rw [parseexec_block hp, parseblock_line hp1 hg hline hp3 hg', hredirs]

/-- A pipe: the command left of `|`, then the pipeline right of it. -/
theorem pipeReads_pipe {l r : Cmd (List Char)} (hl : ExecReads buf es l) (hr : PipeReads buf es r) :
    PipeReads buf es (.pipe l r) := by
  intro s rest hs hc hrest
  rw [show (Cmd.pipe l r).text 2 = l.text 3 ++ ' ' :: '|' :: ' ' :: r.text 2 by
    simp [Cmd.text, wrap], List.append_assoc] at hc
  obtain ⟨fuel1, c1, s1, hexec, hc1, hrel1⟩ := hl [] (by simp) s (' ' :: '|' :: ' ' :: (r.text 2 ++ rest))
    hs (by simpa [redirsText] using hc) (by rw [first_cons_blank rfl, first_cons rfl]; simp [stopExec])
  obtain ⟨hp, q, s3, hg, hc3, -, hs3e⟩ :=
    peek_gettoken_sym hes ['|'] (parseexec_le hes hs hexec).2 ((cursor_blank rfl).mp hc1)
      (by simp) rfl
  obtain ⟨fuel2, c2, s4, hpipe, hc4, hrel2⟩ := hr s3 rest hs3e ((cursor_blank rfl).mp hc3) hrest
  refine ⟨max fuel1 fuel2 + 1, .pipe c1 c2, s4, ?_, hc4, hrel1, hrel2⟩
  exact parsepipe_pipe (parseexec_mono hexec (le_max_left _ _)) hp hg
    (parsepipe_mono hpipe (le_max_right _ _))

/-- Not a pipe: a command, and no `|` after it. -/
theorem pipeReads_exec {t : Cmd (List Char)} (htext : t.text 2 = t.text 3)
    (h : ExecReads buf es t) : PipeReads buf es t := by
  intro s rest hs hc hrest
  rw [htext] at hc
  obtain ⟨fuel, c, s1, hexec, hc1, hrel⟩ :=
    h [] (by simp) s rest hs (by simpa [redirsText] using hc) (stopPipe_sub hrest)
  have hs1e := (parseexec_le hes hs hexec).2
  have hp : peek buf es ['|'] s1 = .ok false (skipWs buf es s1) := by
    rw [peek_cursor hes hs1e hc1, peek_not_mem ((by simp [stopPipe] : ∀ c ∈ stopPipe, c ∉ ['|']) _ hrest)]
  exact ⟨fuel + 1, c, _, parsepipe_exec hexec hp, cursor_skipWs hc1, hrel⟩

/-- Not a `&`: a pipeline, then the loop reads the `&`s after it. -/
theorem backReads_pipe {t : Cmd (List Char)} (htext : t.text 1 = t.text 2)
    (h : PipeReads buf es t) : BackReads buf es t := by
  intro m s rest hs hc hrest
  rw [htext, List.append_assoc] at hc
  have hstop : first (amps m ++ rest) ∈ stopPipe := by
    cases m with
    | zero => simpa [amps] using stopBack_sub hrest
    | succ m =>
      simp only [amps, List.replicate_succ, List.flatten_cons, List.cons_append, List.nil_append]
      rw [first_cons_blank rfl, first_cons rfl]
      simp [stopPipe]
  obtain ⟨fuel, c1, s1, hpipe, hc1, hrel⟩ := h s _ hs hc hstop
  have hs1e := (parsepipe_le hes hs hpipe).2
  obtain ⟨s', hloop, hc'⟩ := backLoop_text hes m hrest (es + 1) c1 s1 hs1e (by omega) hc1
  exact ⟨fuel, c1, s1, _, s', hpipe, hloop, hc', rel_iterate_back hrel m⟩

/-- A list: the pipeline and `&`s left of `;`, then the line right of it. -/
theorem lineReads_list {l r : Cmd (List Char)} (hl : BackReads buf es l) (hr : LineReads buf es r) :
    LineReads buf es (.list l r) := by
  intro s rest hs hc hrest
  rw [show (Cmd.list l r).text 0 = l.text 1 ++ ' ' :: ';' :: ' ' :: r.text 0 by
    simp [Cmd.text, wrap], List.append_assoc] at hc
  obtain ⟨fuel1, c1, s1, c2, s2, hpipe, hloop, hc2, hrel1⟩ :=
    hl 0 s (' ' :: ';' :: ' ' :: (r.text 0 ++ rest)) hs (by simpa [amps] using hc)
      (by rw [first_cons_blank rfl, first_cons rfl]; simp [stopBack])
  have hs1e := (parsepipe_le hes hs hpipe).2
  have hs2e := (backLoop_le hes hs1e (by omega) hloop).2
  obtain ⟨hp, q, s4, hg, hc4, -, hs4e⟩ :=
    peek_gettoken_sym hes [';'] hs2e ((cursor_blank rfl).mp hc2) (by simp) rfl
  obtain ⟨fuel2, c3, s5, hline, hc5, hrel2⟩ := hr s4 rest hs4e ((cursor_blank rfl).mp hc4) hrest
  refine ⟨max fuel1 fuel2 + 1, .list c2 c3, s5, ?_, hc5, hrel1, hrel2⟩
  exact parseline_list (parsepipe_mono hpipe (le_max_left _ _)) hloop hp hg
    (parseline_mono hline (le_max_right _ _))

/-- Not a list: a pipeline and its `&`s, and no `;` after them. -/
theorem lineReads_back {t : Cmd (List Char)} (htext : t.text 0 = t.text 1)
    (h : BackReads buf es t) : LineReads buf es t := by
  intro s rest hs hc hrest
  rw [htext] at hc
  obtain ⟨fuel, c1, s1, c, s2, hpipe, hloop, hc2, hrel⟩ :=
    h 0 s rest hs (by simpa [amps] using hc) (stopLine_sub hrest)
  have hs1e := (parsepipe_le hes hs hpipe).2
  have hs2e := (backLoop_le hes hs1e (by omega) hloop).2
  have hp : peek buf es [';'] s2 = .ok false (skipWs buf es s2) := by
    rw [peek_cursor hes hs2e hc2, peek_not_mem ((by simp [stopLine] : ∀ c ∈ stopLine, c ∉ [';']) _ hrest)]
  exact ⟨fuel + 1, c, _, parseline_pipe hpipe hloop hp, cursor_skipWs hc2, hrel⟩

/-- Every level reads every well-formed tree, by induction on the tree: within one node the
levels go down `parseline`, `parsepipe`, `parseexec` and back to `parseline` inside the
parentheses, and each constructor is read at the level that builds it. -/
theorem reads (t : Cmd (List Char)) (ht : t.WellFormed) :
    ExecReads buf es t ∧ PipeReads buf es t ∧ BackReads buf es t ∧ LineReads buf es t := by
  induction t with
  | exec argv =>
    have h3 := execReads_exec hes ht
    have h2 := pipeReads_exec hes rfl h3
    have h1 := backReads_pipe hes rfl h2
    exact ⟨h3, h2, h1, lineReads_back hes rfl h1⟩
  | redir c file mode fd ih =>
    have h3 := execReads_redir (ih ht.1).1 ht.2
    have h2 := pipeReads_exec hes rfl h3
    have h1 := backReads_pipe hes rfl h2
    exact ⟨h3, h2, h1, lineReads_back hes rfl h1⟩
  | pipe l r ihl ihr =>
    have h2 := pipeReads_pipe hes (ihl ht.1).1 (ihr ht.2).2.1
    have h1 := backReads_pipe hes rfl h2
    have h0 := lineReads_back hes rfl h1
    exact ⟨execReads_block hes rfl h0, h2, h1, h0⟩
  | list l r ihl ihr =>
    have h0 := lineReads_list hes (ihl ht.1).2.2.1 (ihr ht.2).2.2.2
    have h3 := execReads_block hes rfl h0
    have h2 := pipeReads_exec hes rfl h3
    exact ⟨h3, h2, backReads_pipe hes rfl h2, h0⟩
  | back c ih =>
    have h1 := backReads_back (ih ht).2.2.1
    have h0 := lineReads_back hes rfl h1
    have h3 := execReads_block hes rfl h0
    exact ⟨h3, pipeReads_exec hes rfl h3, h1, h0⟩

end Levels

/-! ## `nulterminate`, and `parsecmd` on the canonical text -/

/-- The words of a tree, in the order `nulterminate` visits them. -/
def Cmd.allWords {w : Type} : Cmd w → List w
  | .exec argv => argv
  | .redir c file _ _ => c.allWords ++ [file]
  | .pipe l r => l.allWords ++ r.allWords
  | .list l r => l.allWords ++ r.allWords
  | .back c => c.allWords

/-- `nulterminate` writes a `NUL` at the end of each word, in order. -/
theorem nulterminate_eq (c : Cmd (Nat × Nat)) (buf : List Char) :
    nulterminate c buf = (c.allWords.map Prod.snd).foldl (fun b e => b.set e '\x00') buf := by
  induction c generalizing buf with
  | exec argv => simp [nulterminate, Cmd.allWords, List.foldl_map]
  | redir c file mode fd ih => simp [nulterminate, Cmd.allWords, ih]
  | pipe l r ihl ihr => simp [nulterminate, Cmd.allWords, ihl, ihr]
  | list l r ihl ihr => simp [nulterminate, Cmd.allWords, ihl, ihr]
  | back c ih => simp [nulterminate, Cmd.allWords, ih]

theorem charAt_set_nul (b : List Char) (e p : Nat) :
    charAt (b.set e '\x00') p = if e = p then '\x00' else charAt b p := by
  simp only [charAt, List.getD_eq_getElem?_getD, List.getElem?_set]
  split
  · split <;> rfl
  · rfl

theorem charAt_foldl_set (E : List Nat) (b : List Char) (p : Nat) :
    charAt (E.foldl (fun b e => b.set e '\x00') b) p = if p ∈ E then '\x00' else charAt b p := by
  induction E generalizing b with
  | nil => simp
  | cons e E ih =>
    rw [List.foldl_cons, ih, charAt_set_nul]
    by_cases hp : p ∈ E
    · simp [hp]
    · by_cases he : e = p <;> simp [hp, he, Ne.symm]

/-- A C string is read up to its `NUL`. -/
theorem cstrAt_eq {b w : List Char} {q : Nat} (h : ∀ i (hi : i < w.length), charAt b (q + i) = w[i])
    (h0 : '\x00' ∉ w) (hend : charAt b (q + w.length) = '\x00') : cstrAt b q = w := by
  induction w generalizing q with
  | nil =>
    simp only [List.length_nil, Nat.add_zero] at hend
    unfold cstrAt
    cases hb : b.drop q with
    | nil => rfl
    | cons c l =>
      have hc : charAt b q = c := by
        rw [charAt, List.getD_eq_getElem?_getD, ← List.head?_drop, hb]
        rfl
      simp [← hc, hend]
  | cons c w ih =>
    have hc : charAt b q = c := by
      have := h 0 (by simp)
      rwa [Nat.add_zero, List.getElem_cons_zero] at this
    have hrest : cstrAt b (q + 1) = w := by
      refine ih (fun i hi => ?_) (fun hm => h0 (List.mem_cons_of_mem c hm)) ?_
      · have := h (i + 1) (by simp; omega)
        rw [List.getElem_cons_succ] at this
        rw [← this]
        congr 1
        omega
      · simpa [Nat.add_assoc, Nat.add_comm 1] using hend
    have hlt : q < b.length := by
      by_contra hge
      rw [charAt, List.getD_eq_default _ _ (by omega)] at hc
      exact h0 (hc ▸ List.mem_cons_self)
    have hcne : c ≠ '\x00' := fun he => h0 (he ▸ List.mem_cons_self)
    unfold cstrAt at hrest ⊢
    rw [List.drop_eq_getElem_cons hlt]
    have hget : b[q] = c := by rw [← hc, charAt, List.getD_eq_getElem _ _ hlt]
    rw [hget, List.takeWhile_cons_of_pos (by simpa using hcne), hrest]

theorem forall₂_exists_of_mem {α β : Type} {R : α → β → Prop} {l₁ : List α} {l₂ : List β}
    (h : List.Forall₂ R l₁ l₂) {a : α} (ha : a ∈ l₁) : ∃ b, R a b := by
  induction h with
  | nil => cases ha
  | cons hab _ ih =>
    rcases List.mem_cons.mp ha with rfl | ha
    · exact ⟨_, hab⟩
    · exact ih ha

theorem Cmd.Rel.allWords {α β : Type} {R : α → β → Prop} {c : Cmd α} {t : Cmd β} (h : c.Rel R t) :
    List.Forall₂ R c.allWords t.allWords := by
  induction c generalizing t with
  | exec a => cases t <;> first | exact h | exact h.elim
  | redir c f m fd ih =>
    cases t with
    | redir c' f' m' fd' => exact List.rel_append (ih h.1) (.cons h.2.1 .nil)
    | _ => exact h.elim
  | pipe l r ihl ihr =>
    cases t with
    | pipe l' r' => exact List.rel_append (ihl h.1) (ihr h.2)
    | _ => exact h.elim
  | list l r ihl ihr =>
    cases t with
    | list l' r' => exact List.rel_append (ihl h.1) (ihr h.2)
    | _ => exact h.elim
  | back c ih =>
    cases t with
    | back c' =>
      have h' : List.Forall₂ R c.allWords c'.allWords := ih h
      exact h'
    | _ => exact h.elim

/-- `R` implies `S` on the words of `c`: then `S` relates the trees too. -/
theorem Cmd.Rel.imp_mem {α β : Type} {R S : α → β → Prop} {c : Cmd α} {t : Cmd β} (h : c.Rel R t)
    (hRS : ∀ a ∈ c.allWords, ∀ b, R a b → S a b) : c.Rel S t := by
  induction c generalizing t with
  | exec a =>
    cases t with
    | exec b =>
      have hmem := (List.forall₂_and_left (p := (· ∈ a)) _ _).mpr ⟨fun x hx => hx, h⟩
      exact hmem.imp fun x y hxy => hRS x hxy.1 y hxy.2
    | _ => exact h.elim
  | redir c f m fd ih =>
    cases t with
    | redir c' f' m' fd' =>
      exact ⟨ih h.1 fun a ha => hRS a (List.mem_append_left _ ha),
        hRS f (List.mem_append_right _ (List.mem_singleton_self f)) _ h.2.1, h.2.2⟩
    | _ => exact h.elim
  | pipe l r ihl ihr =>
    cases t with
    | pipe l' r' =>
      exact ⟨ihl h.1 fun a ha => hRS a (List.mem_append_left _ ha),
        ihr h.2 fun a ha => hRS a (List.mem_append_right _ ha)⟩
    | _ => exact h.elim
  | list l r ihl ihr =>
    cases t with
    | list l' r' =>
      exact ⟨ihl h.1 fun a ha => hRS a (List.mem_append_left _ ha),
        ihr h.2 fun a ha => hRS a (List.mem_append_right _ ha)⟩
    | _ => exact h.elim
  | back c ih =>
    cases t with
    | back c' =>
      have h' : c.Rel S c' := ih h hRS
      exact h'
    | _ => exact h.elim

theorem Cmd.Rel.map_eq {α β : Type} {f : α → β} {c : Cmd α} {t : Cmd β}
    (h : c.Rel (fun a b => f a = b) t) : c.map f = t := by
  induction c generalizing t with
  | exec a =>
    cases t with
    | exec b =>
      simp only [Cmd.map, Cmd.exec.injEq]
      induction h with
      | nil => rfl
      | cons hab _ ih => rw [List.map_cons, hab, ih]
    | _ => exact h.elim
  | redir c f m fd ih =>
    cases t with
    | redir c' f' m' fd' =>
      obtain ⟨hc, hf, rfl, rfl⟩ := h
      rw [Cmd.map, ih hc, hf]
    | _ => exact h.elim
  | pipe l r ihl ihr =>
    cases t with
    | pipe l' r' => rw [Cmd.map, ihl h.1, ihr h.2]
    | _ => exact h.elim
  | list l r ihl ihr =>
    cases t with
    | list l' r' => rw [Cmd.map, ihl h.1, ihr h.2]
    | _ => exact h.elim
  | back c ih =>
    cases t with
    | back c' => rw [Cmd.map, ih (show c.Rel _ c' from h)]
    | _ => exact h.elim

section Nulterminate

variable {buf : List Char} {es : Nat} (hes : es = strlen buf)
include hes

theorem charAt_of_ahead {q : Nat} {w r : List Char} (h : ahead buf es q = w ++ r) {i : Nat}
    (hi : i < w.length) : charAt buf (q + i) = w[i] := by
  have hlen := length_ahead (s := q) (hes ▸ strlen_le buf)
  rw [h, List.length_append] at hlen
  rw [charAt_eq_headD hes (by omega), ahead_add, h, List.drop_append_of_le_length hi.le,
    List.drop_eq_getElem_cons hi]
  rfl

/-- The character after a word is no word character. -/
theorem wordChar_charAt_end {p : Nat × Nat} {w : List Char} (h : WordAt buf es p w) :
    wordChar (charAt buf p.2) = false := by
  obtain ⟨hw, hend, r, hq, hr⟩ := h
  have hlen := length_ahead (s := p.1) (hes ▸ strlen_le buf)
  rw [hq, List.length_append] at hlen
  have hne : w.length ≠ 0 := by simpa using hw.1
  rw [hend, charAt_eq_headD hes (by omega), ahead_add, hq, List.drop_left]
  exact hr

/-- After `nulterminate`, each word of the tree is the C string at its start. -/
theorem cstrAt_nulterminate {c : Cmd (Nat × Nat)} {t : Cmd (List Char)}
    (hrel : c.Rel (WordAt buf es) t) :
    c.Rel (fun p w => cstrAt (nulterminate c buf) p.1 = w) t := by
  -- every `NUL` written stands where no word character was
  have hE : ∀ e ∈ c.allWords.map Prod.snd, wordChar (charAt buf e) = false := by
    intro e he
    obtain ⟨p, hp, rfl⟩ := List.mem_map.mp he
    obtain ⟨w, hpw⟩ := forall₂_exists_of_mem hrel.allWords hp
    exact wordChar_charAt_end hes hpw
  refine hrel.imp_mem fun p hp w hpw => ?_
  obtain ⟨hw, hend, r, hq, -⟩ := hpw
  rw [nulterminate_eq]
  apply cstrAt_eq
  · intro i hi
    rw [charAt_foldl_set, charAt_of_ahead hes hq hi, if_neg]
    intro hmem
    have := hE _ hmem
    rw [charAt_of_ahead hes hq hi, hw.2 _ (List.getElem_mem hi)] at this
    exact absurd this (by decide)
  · exact fun h0 => absurd (hw.2 _ h0) (by decide)
  · rw [charAt_foldl_set, ← hend, if_pos (List.mem_map.mpr ⟨p, hp, rfl⟩)]

end Nulterminate

theorem nul_not_mem_word {w : List Char} (hw : IsWord w) : '\x00' ∉ w := fun h =>
  absurd (hw.2 _ h) (by decide)

theorem nul_not_mem_wrap {b : Bool} {x : List Char} (h : '\x00' ∉ x) : '\x00' ∉ wrap b x := by
  unfold wrap
  split
  · exact h
  · simp [h]

/-- The canonical text holds no `NUL`. -/
theorem nul_not_mem_text {t : Cmd (List Char)} (ht : t.WellFormed) (k : Nat) : '\x00' ∉ t.text k := by
  induction t generalizing k with
  | exec argv =>
    cases argv with
    | nil => simp [Cmd.text, words]
    | cons w ws =>
      simp only [Cmd.text, words, List.mem_append, List.mem_flatMap, List.mem_cons, not_or,
        not_exists, not_and]
      refine ⟨nul_not_mem_word (ht.2 w List.mem_cons_self), fun v hv => ⟨by decide, ?_⟩⟩
      exact nul_not_mem_word (ht.2 v (List.mem_cons_of_mem w hv))
  | redir c file mode fd ih =>
    have hsym : redirSym mode ≠ '\x00' := by unfold redirSym; split <;> decide
    simp only [Cmd.text, redirText, List.mem_append, List.mem_cons, not_or]
    exact ⟨ih ht.1 3, by decide, Ne.symm hsym, by decide, nul_not_mem_word ht.2.1⟩
  | pipe l r ihl ihr =>
    apply nul_not_mem_wrap
    simp only [List.mem_append, List.mem_cons, List.not_mem_nil, not_or]
    exact ⟨⟨ihl ht.1 3, by decide, by decide, by decide, fun h => h⟩, ihr ht.2 2⟩
  | list l r ihl ihr =>
    apply nul_not_mem_wrap
    simp only [List.mem_append, List.mem_cons, List.not_mem_nil, not_or]
    exact ⟨⟨ihl ht.1 1, by decide, by decide, by decide, fun h => h⟩, ihr ht.2 0⟩
  | back c ih =>
    apply nul_not_mem_wrap
    simp only [List.mem_append, List.mem_cons, List.not_mem_nil, not_or]
    exact ⟨ih ht 1, by decide, by decide, fun h => h⟩

theorem strlen_append_nul {x : List Char} (h : '\x00' ∉ x) : strlen (x ++ ['\x00']) = x.length := by
  induction x with
  | nil => rfl
  | cons c x ih =>
    have hc : c ≠ '\x00' := fun he => h (he ▸ List.mem_cons_self)
    rw [List.cons_append, strlen_cons, if_neg hc, ih (fun hm => h (List.mem_cons_of_mem c hm))]
    rfl

theorem ahead_text {x : List Char} : ahead (x ++ ['\x00']) x.length 0 = x := by
  simp [ahead]

/-- With enough fuel `parseline` gives what any fuel gives. -/
theorem parseline_eq_of_ok {buf : List Char} {es fuel fuel' s s' : Nat} {c : Cmd (Nat × Nat)}
    (h : parseline buf es fuel s = .ok c s') (h' : parseline buf es fuel' s ≠ .stuck) :
    parseline buf es fuel' s = .ok c s' := by
  have hmax := parseline_mono h (Nat.le_add_right fuel fuel')
  rw [Nat.add_comm, (parse_extends fuel' fuel).1 s h'] at hmax
  exact hmax

/-- `parsecmd` once `parseline` has returned and no text is left. -/
theorem parsecmd_ok {buf : List Char} {es s1 : Nat} {b : Bool} {c : Cmd (Nat × Nat)}
    (hes : strlen buf = es) (h1 : parseline buf es (5 * es + 5) 0 = .ok c s1)
    (h2 : peek buf es [] s1 = .ok b es) : parsecmd buf = .ok (c, nulterminate c buf) es := by
  subst hes
  unfold parsecmd
  rw [bind_ok h1, bind_ok h2, bind_ok (rfl : pos (strlen buf) = .ok (strlen buf) (strlen buf))]
  simp only [ne_eq, not_true_eq_false, ↓reduceIte]
  rfl

/-- `parsecmd` reads the canonical text of every well-formed tree back as the tree: it builds
the same tree, and after `nulterminate` every word and file name is the C string at its start. -/
theorem parsecmd_text (t : Cmd (List Char)) (ht : t.WellFormed) :
    ∃ cmd buf', parsecmd (t.text 0 ++ ['\x00']) = .ok (cmd, buf') (t.text 0).length ∧
      cmd.map (fun p => cstrAt buf' p.1) = t := by
  have h0 := nul_not_mem_text ht 0
  have hes : (t.text 0).length = strlen (t.text 0 ++ ['\x00']) := (strlen_append_nul h0).symm
  have hc : Cursor (t.text 0 ++ ['\x00']) (t.text 0).length 0 (t.text 0 ++ []) :=
    cursor_of_ahead (by rw [List.append_nil, ahead_text])
  obtain ⟨fuel, c, s', hline, hc', hrel⟩ :=
    (reads hes t ht).2.2.2 0 [] (Nat.zero_le _) hc (by simp [first, stopLine])
  -- with the fuel `parsecmd` gives it, `parseline` returns the same tree
  have hs' := (parseline_le hes (Nat.zero_le _) hline).2
  have hprog := (parse_progress hes (5 * (t.text 0).length + 5) 0 (Nat.zero_le _)).1 (by omega)
  have hne : parseline (t.text 0 ++ ['\x00']) (t.text 0).length (5 * (t.text 0).length + 5) 0 ≠
      .stuck := fun h => by rw [h] at hprog; exact hprog
  -- nothing is left after the line
  have hend : skipWs (t.text 0 ++ ['\x00']) (t.text 0).length s' = (t.text 0).length := by
    have hnil := ahead_skipWs_of_cursor hc'
    have hlen := length_ahead (s := skipWs (t.text 0 ++ ['\x00']) (t.text 0).length s')
      (by simp : (t.text 0).length ≤ (t.text 0 ++ ['\x00']).length)
    rw [hnil] at hlen
    have := skipWs_le_es hes hs'
    simp at hlen
    omega
  have hpeek : peek (t.text 0 ++ ['\x00']) (t.text 0).length [] s' = .ok _ _ := peek_cursor hes hs' hc'
  rw [hend] at hpeek
  refine ⟨c, _, parsecmd_ok hes.symm (parseline_eq_of_ok hline hne) hpeek, ?_⟩
  exact (cstrAt_nulterminate hes hrel).map_eq

/-- `parsecmd` returns a tree or panics on every input, and on the canonical text of every
well-formed tree it returns that tree, with every word `NUL`-terminated in place. -/
theorem parsecmd_total_round_trip :
    (∀ buf, parsecmd buf ≠ .stuck) ∧
      ∀ t : Cmd (List Char), t.WellFormed →
        ∃ cmd buf', parsecmd (t.text 0 ++ ['\x00']) = .ok (cmd, buf') (t.text 0).length ∧
          cmd.map (fun p => cstrAt buf' p.1) = t :=
  ⟨parsecmd_ne_stuck, parsecmd_text⟩

/-- `ls > f | wc`, read back. -/
theorem parsecmd_total_round_trip_pipe :
    (Cmd.pipe (.redir (.exec [['l', 's']]) ['f'] (O_WRONLY ||| O_CREATE) 1)
      (.exec [['w', 'c']])).WellFormed ∧
    ∃ cmd buf', parsecmd ((Cmd.pipe (.redir (.exec [['l', 's']]) ['f'] (O_WRONLY ||| O_CREATE) 1)
        (.exec [['w', 'c']])).text 0 ++ ['\x00']) =
          .ok (cmd, buf') ((Cmd.pipe (.redir (.exec [['l', 's']]) ['f'] (O_WRONLY ||| O_CREATE) 1)
            (.exec [['w', 'c']])).text 0).length ∧
      cmd.map (fun p => cstrAt buf' p.1) =
        Cmd.pipe (.redir (.exec [['l', 's']]) ['f'] (O_WRONLY ||| O_CREATE) 1) (.exec [['w', 'c']]) := by
  have ht : (Cmd.pipe (.redir (.exec [['l', 's']]) ['f'] (O_WRONLY ||| O_CREATE) 1)
      (.exec [['w', 'c']])).WellFormed := by
    simp [Cmd.WellFormed, RedirOk, IsWord, wordChar, isWhitespace, isSymbol, strchr, whitespace,
      symbols, MAXARGS]
  exact ⟨ht, parsecmd_total_round_trip.2 _ ht⟩

end Sh

end Xv6
