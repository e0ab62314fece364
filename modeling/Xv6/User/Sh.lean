import Xv6.File.Sysfile
import Xv6.User.Grep

/-!
# `sh.c`: the command parser

`parsecmd(s)` parses the command line `s` with a cursor `*ps` into it and its end `es`: the
recursive-descent functions `parseline`, `parsepipe`, `parseexec`, `parseblock` and
`parseredirs` read tokens with `gettoken` and look ahead with `peek`, and build a tree of
`struct cmd` whose words are pointer pairs `q`, `eq` into `s`; `nulterminate` then writes a `NUL`
at every `eq`.

* `ahead`, `skipWs`, `scanToken`, `gettoken`, `peek` : the lexer, with the cursor a position in
  the buffer and the text `s[0 .. es)` ahead of it;
* `Res`, `P` : a parser over the cursor: a value and the new cursor, a `panic` (with what it
  writes before `exit`), or no result within the fuel;
* `Cmd`, `parseredirs`, `backLoop`, `execLoop`, `parseline`, `parsepipe`, `parseblock`,
  `parseexec`, `nulterminate`, `parsecmd` : the parser; recursion is bounded by a fuel, and each
  `while` loop by `es + 1` turns, as each turn takes a token;
* `gettoken_sym`, `gettoken_word`, `peek_cursor`, … : what the lexer does on a text `x` at the
  cursor (`Cursor`), blanks aside;
* `parse_progress`, `parsecmd_ne_stuck` : with fuel `4 (es - s) + 4` the parser never runs out,
  as each call that takes no token goes one level down `parseline`, `parsepipe`, `parseexec`,
  `parseblock`; so `parsecmd` returns or panics on every input;
* `parse_extends`, `parseline_mono`, … : fuel is only a bound: more of it gives the same result;
* `parseredirs_step`, `parseline_list`, … : one turn of each function, from the results of the
  calls it makes.
-/
namespace Xv6

namespace Sh

/-- `#define MAXARGS 10` -/
def MAXARGS : Nat := 10

/-- `char whitespace[] = " \t\r\n\v";` -/
def whitespace : List Char := [' ', '\t', '\r', '\n', '\x0b']

/-- `char symbols[] = "<|>&;()";` -/
def symbols : List Char := ['<', '|', '>', '&', ';', '(', ')']

/-- `strchr(whitespace, c)` -/
def isWhitespace (c : Char) : Bool := (strchr whitespace c).isSome

/-- `strchr(symbols, c)` -/
def isSymbol (c : Char) : Bool := (strchr symbols c).isSome

/-- `*s`: the character at `s`, a `NUL` past the end of the buffer. -/
def charAt (buf : List Char) (s : Nat) : Char := buf.getD s '\x00'

/-- `strlen(s)` -/
def strlen (buf : List Char) : Nat := (buf.takeWhile fun c => c != '\x00').length

/-- The C string at `s`: its characters up to the `NUL`. -/
def cstrAt (buf : List Char) (s : Nat) : List Char := (buf.drop s).takeWhile fun c => c != '\x00'

/-! ## The lexer -/

section Lexer

variable (buf : List Char) (es : Nat)

/-- The characters `s[0 .. es)` ahead of the cursor `s`. -/
def ahead (s : Nat) : List Char := (buf.drop s).take (es - s)

/-- `while(s < es && strchr(whitespace, *s)) s++;` -/
def skipWs (s : Nat) : Nat := s + ((ahead buf es s).takeWhile isWhitespace).length

/-- The `switch(*s)` of `gettoken`: the token it returns and where it leaves `s`. -/
def scanToken (s : Nat) : Char × Nat :=
  let c := charAt buf s
  if c = '\x00' then (c, s)
  else if c ∈ ['|', '(', ')', ';', '&', '<'] then (c, s + 1)
  else if c = '>' then
    if charAt buf (s + 1) = '>' then ('+', s + 2) else ('>', s + 1)
  else ('a', s + ((ahead buf es s).takeWhile fun c => !isWhitespace c && !isSymbol c).length)

/-- What `gettoken` returns and stores in `*q` and `*eq`: `'a'` for a word, `'+'` for `>>`, a
symbol, or `'\0'` at the end. -/
structure Token where
  tok : Char
  q : Nat
  eq : Nat
deriving DecidableEq, Repr

/-- The outcome of a parser from the cursor: a value and the new cursor, a `panic` with what it
writes before it calls `exit`, or no result within the fuel. -/
inductive Res (α : Type) where
  | ok (a : α) (s : Nat)
  | panic (err : List Char)
  | stuck
deriving DecidableEq, Repr

/-- A parser: code that reads and moves the cursor `*ps`. -/
def P (α : Type) : Type := Nat → Res α

/-- Run `x`, then `f` on its value from where `x` left the cursor. -/
def P.bind {α β : Type} (x : P α) (f : α → P β) : P β := fun s =>
  match x s with
  | .ok a s' => f a s'
  | .panic err => .panic err
  | .stuck => .stuck

instance : Monad P where
  pure a := fun s => .ok a s
  bind := P.bind

/-- `exit()` after the text `err` is written on the console. -/
def exit {α : Type} (err : List Char) : P α := fun _ => .panic err

/-- `panic(s)`: `printf(2, "%s\n", s); exit();` -/
def panic {α : Type} (msg : String) : P α := exit (msg.toList ++ ['\n'])

/-- The cursor `*ps`. -/
def pos : P Nat := fun s => .ok s s

/-- `gettoken(ps, es, &q, &eq)` -/
def gettoken : P Token := fun s =>
  let s := skipWs buf es s
  let (ret, e) := scanToken buf es s
  .ok ⟨ret, s, e⟩ (skipWs buf es e)

/-- `peek(ps, es, toks)`: `*ps` past the blanks, and `*s && strchr(toks, *s)`. -/
def peek (toks : List Char) : P Bool := fun s =>
  let s := skipWs buf es s
  .ok (charAt buf s != '\x00' && (strchr toks (charAt buf s)).isSome) s

end Lexer

/-! ## What the lexer does

Every position the parser reaches is at most `es = strlen(s)`, so what it reads from a cursor is
the text `ahead` of it, with the `NUL` at `es` after it. -/

/-- A character of a word: not `NUL`, not a blank, not a symbol. -/
def wordChar (c : Char) : Bool := c != '\x00' && !isWhitespace c && !isSymbol c

/-- A word: one character or more, each a word character. -/
def IsWord (w : List Char) : Prop := w ≠ [] ∧ ∀ c ∈ w, wordChar c = true

instance : DecidablePred IsWord := fun _ => inferInstanceAs (Decidable (_ ∧ _))

/-- The character the next token starts with: the first one past the blanks, `NUL` at the end. -/
def first (x : List Char) : Char := (x.dropWhile isWhitespace).headD '\x00'

/-- At the cursor `s` stands the text `x`, blanks before either aside. -/
def Cursor (buf : List Char) (es s : Nat) (x : List Char) : Prop :=
  (ahead buf es s).dropWhile isWhitespace = x.dropWhile isWhitespace

theorem dropWhile_dropWhile {α : Type} (p : α → Bool) (l : List α) :
    (l.dropWhile p).dropWhile p = l.dropWhile p := by
  induction l with
  | nil => rfl
  | cons a l ih =>
    rw [List.dropWhile_cons]
    split
    · exact ih
    · rename_i ha
      rw [List.dropWhile_cons, if_neg ha]

/-- The tokens that are one symbol, and `>`, start no blank and no word. -/
theorem sym_not_blank : ∀ c ∈ ['|', '(', ')', ';', '&', '<', '>'],
    isWhitespace c = false ∧ wordChar c = false := by
  simp [isWhitespace, wordChar, isSymbol, strchr, whitespace, symbols]

section LexerSpec

variable {buf : List Char} {es s : Nat}

theorem strlen_cons (c : Char) (b : List Char) :
    strlen (c :: b) = if c = '\x00' then 0 else strlen b + 1 := by
  by_cases hc : c = '\x00' <;> simp [strlen, hc]

theorem strlen_le (buf : List Char) : strlen buf ≤ buf.length := by
  induction buf with
  | nil => simp [strlen]
  | cons c b ih =>
    rw [strlen_cons]
    split <;> simp only [List.length_cons] <;> omega

theorem charAt_strlen (buf : List Char) : charAt buf (strlen buf) = '\x00' := by
  induction buf with
  | nil => rfl
  | cons c b ih =>
    rw [strlen_cons]
    split
    · rename_i hc
      exact hc
    · exact ih

theorem charAt_ne_nul {buf : List Char} {p : Nat} (h : p < strlen buf) : charAt buf p ≠ '\x00' := by
  induction buf generalizing p with
  | nil => simp [strlen] at h
  | cons c b ih =>
    rw [strlen_cons] at h
    split at h
    · omega
    · rename_i hc
      cases p with
      | zero => exact hc
      | succ p => exact ih (by omega)

theorem ahead_add (k : Nat) : ahead buf es (s + k) = (ahead buf es s).drop k := by
  simp only [ahead, List.drop_take, List.drop_drop, Nat.sub_sub]

theorem ahead_of_le (h : es ≤ s) : ahead buf es s = [] := by
  simp [ahead, Nat.sub_eq_zero_of_le h]

theorem length_ahead (hes : es ≤ buf.length) : (ahead buf es s).length = es - s := by
  simp only [ahead, List.length_take, List.length_drop]
  omega

/-- One character off the front of the text ahead. -/
theorem ahead_eq_cons (hes : es ≤ buf.length) (hs : s < es) :
    ahead buf es s = charAt buf s :: ahead buf es (s + 1) := by
  have hne : ahead buf es s ≠ [] := by
    rw [← List.length_pos_iff, length_ahead hes]
    omega
  obtain ⟨c, l, hcl⟩ := List.exists_cons_of_ne_nil hne
  have hc : charAt buf s = c := by
    have := congrArg List.head? hcl
    rw [ahead, List.head?_take, if_neg (by omega), List.head?_drop] at this
    rw [charAt, List.getD_eq_getElem?_getD, this]
    rfl
  rw [hcl, hc, ahead_add 1, hcl, List.drop_one, List.tail_cons]

section Strlen

variable (hes : es = strlen buf)
include hes

/-- The cursor reads the first character of the text ahead, and `NUL` at `es`. -/
theorem charAt_eq_headD (hs : s ≤ es) : charAt buf s = (ahead buf es s).headD '\x00' := by
  rcases Nat.lt_or_ge s es with hlt | hge
  · rw [ahead_eq_cons (hes ▸ strlen_le buf) hlt]
    rfl
  · rw [ahead_of_le hge, show s = es by omega, hes, charAt_strlen]
    rfl

theorem nul_not_mem_ahead : '\x00' ∉ ahead buf es s := by
  induction h : es - s generalizing s with
  | zero => simp [ahead_of_le (show es ≤ s by omega)]
  | succ k ih =>
    rw [ahead_eq_cons (hes ▸ strlen_le buf) (by omega), List.mem_cons, not_or]
    exact ⟨(charAt_ne_nul (by omega)).symm, ih (by omega)⟩

theorem skipWs_le_es (hs : s ≤ es) : skipWs buf es s ≤ es := by
  have hle : ((ahead buf es s).takeWhile isWhitespace).length ≤ (ahead buf es s).length :=
    (List.takeWhile_sublist _).length_le
  rw [length_ahead (hes ▸ strlen_le buf)] at hle
  simp only [skipWs]
  omega

end Strlen

theorem ahead_skipWs : ahead buf es (skipWs buf es s) = (ahead buf es s).dropWhile isWhitespace := by
  have h := @List.takeWhile_append_dropWhile _ isWhitespace (ahead buf es s)
  rw [skipWs, ahead_add]
  calc (ahead buf es s).drop ((ahead buf es s).takeWhile isWhitespace).length
      = ((ahead buf es s).takeWhile isWhitespace ++ (ahead buf es s).dropWhile isWhitespace).drop
          ((ahead buf es s).takeWhile isWhitespace).length := by rw [h]
    _ = _ := List.drop_left

theorem cursor_of_ahead {x : List Char} (h : ahead buf es s = x) : Cursor buf es s x := by
  rw [Cursor, h]

theorem cursor_blank {c : Char} {x : List Char} (hc : isWhitespace c = true) :
    Cursor buf es s (c :: x) ↔ Cursor buf es s x := by
  rw [Cursor, Cursor, List.dropWhile_cons, if_pos hc]

theorem ahead_skipWs_of_cursor {x : List Char} (h : Cursor buf es s x) :
    ahead buf es (skipWs buf es s) = x.dropWhile isWhitespace := by
  rw [ahead_skipWs, h]

theorem cursor_skipWs {x : List Char} (h : Cursor buf es s x) : Cursor buf es (skipWs buf es s) x := by
  rw [Cursor, ahead_skipWs_of_cursor h, dropWhile_dropWhile]

theorem skipWs_skipWs : skipWs buf es (skipWs buf es s) = skipWs buf es s := by
  have h : ahead buf es (skipWs buf es s) = (ahead buf es s).dropWhile isWhitespace := ahead_skipWs
  have hnil : ((ahead buf es (skipWs buf es s)).takeWhile isWhitespace) = [] := by
    rw [h]
    cases hl : (ahead buf es s).dropWhile isWhitespace with
    | nil => rfl
    | cons c l =>
      have hc := @List.head_dropWhile_not _ isWhitespace (ahead buf es s) (by simp [hl])
      simp only [hl, List.head_cons] at hc
      simp [hc]
  rw [skipWs, hnil, List.length_nil, Nat.add_zero]

section Tokens

variable (hes : es = strlen buf)
include hes

theorem lt_of_ahead_eq_cons {c : Char} {r : List Char} (h : ahead buf es s = c :: r) : s < es := by
  by_contra hge
  rw [ahead_of_le (by omega)] at h
  cases h

/-- At the end of the text `gettoken` returns `0` and stays. -/
theorem scanToken_end (hs : s ≤ es) (h : ahead buf es s = []) : scanToken buf es s = ('\x00', s) := by
  have hc : charAt buf s = '\x00' := by rw [charAt_eq_headD hes hs, h]; rfl
  simp [scanToken, hc]

theorem scanToken_sym {c : Char} {r : List Char} (hs : s ≤ es) (h : ahead buf es s = c :: r)
    (hc : c ∈ ['|', '(', ')', ';', '&', '<']) : scanToken buf es s = (c, s + 1) := by
  have hcs : charAt buf s = c := by rw [charAt_eq_headD hes hs, h]; rfl
  have hnul : c ≠ '\x00' := by
    rintro rfl
    exact nul_not_mem_ahead hes (by rw [h]; exact List.mem_cons_self)
  simp only [scanToken, hcs, if_neg hnul, if_pos hc]

/-- `>` not followed by a second `>`. -/
theorem scanToken_gt {r : List Char} (hs : s ≤ es) (h : ahead buf es s = '>' :: r)
    (hr : r.headD '\x00' ≠ '>') : scanToken buf es s = ('>', s + 1) := by
  have hlt := lt_of_ahead_eq_cons hes h
  have hcs : charAt buf s = '>' := by rw [charAt_eq_headD hes hs, h]; rfl
  have hnext : charAt buf (s + 1) = r.headD '\x00' := by
    rw [charAt_eq_headD hes (by omega), ahead_add 1, h]
    rfl
  simp only [List.headD_eq_head?_getD] at hr
  simp [scanToken, hcs, hnext, hr]

/-- A word ends at the first character that is not a word character. -/
theorem scanToken_word {w r : List Char} (hs : s ≤ es) (h : ahead buf es s = w ++ r)
    (hw : IsWord w) (hr : wordChar (r.headD '\x00') = false) :
    scanToken buf es s = ('a', s + w.length) := by
  obtain ⟨c, w', rfl⟩ := List.exists_cons_of_ne_nil hw.1
  have hcs : charAt buf s = c := by rw [charAt_eq_headD hes hs, h]; rfl
  have hc : wordChar c = true := hw.2 c List.mem_cons_self
  have hnul : c ≠ '\x00' := by
    rintro rfl
    exact absurd hc (by decide)
  have hsym : c ∉ ['|', '(', ')', ';', '&', '<', '>'] := fun hm => by
    rw [(sym_not_blank c hm).2] at hc
    exact Bool.false_ne_true hc
  -- the scan takes all of the word and stops at the character after it
  have hscan : ((c :: w') ++ r).takeWhile (fun c => !isWhitespace c && !isSymbol c) = c :: w' := by
    rw [List.takeWhile_append_of_pos fun d hd => by
      have := hw.2 d hd
      simp only [wordChar, Bool.and_eq_true, bne_iff_ne] at this
      simp [this.1.2, this.2]]
    cases r with
    | nil => simp
    | cons d r =>
      have hd : d ≠ '\x00' := by
        rintro rfl
        exact nul_not_mem_ahead hes (by rw [h]; simp)
      have hstop : (!isWhitespace d && !isSymbol d) = false := by
        have : wordChar d = (!isWhitespace d && !isSymbol d) := by
          rw [wordChar, show (d != '\x00') = true from bne_iff_ne.mpr hd, Bool.true_and]
        rw [← this]
        exact hr
      rw [List.takeWhile_cons_of_neg (by simp [hstop]), List.append_nil]
  simp only [List.mem_cons, List.not_mem_nil, or_false, not_or] at hsym
  simp only [scanToken, hcs, h, hscan, if_neg hnul, List.length_cons]
  simp [hsym]

/-- `peek` reads the first character past the blanks of the text at the cursor. -/
theorem peek_cursor {x toks : List Char} (hs : s ≤ es) (h : Cursor buf es s x) :
    peek buf es toks s =
      .ok (first x != '\x00' && (strchr toks (first x)).isSome) (skipWs buf es s) := by
  have hc : charAt buf (skipWs buf es s) = first x := by
    rw [charAt_eq_headD hes (skipWs_le_es hes hs), ahead_skipWs_of_cursor h]
    rfl
  simp only [peek, hc]

theorem gettoken_sym {c : Char} {r : List Char} (hs : s ≤ es) (h : Cursor buf es s (c :: r))
    (hc : c ∈ ['|', '(', ')', ';', '&', '<']) :
    ∃ q s', gettoken buf es s = .ok ⟨c, q, q + 1⟩ s' ∧ Cursor buf es s' r := by
  have hblank : isWhitespace c = false :=
    (sym_not_blank c (List.mem_append_left ['>'] hc)).1
  have h1 : ahead buf es (skipWs buf es s) = c :: r := by
    rw [ahead_skipWs_of_cursor h, List.dropWhile_cons, if_neg (by simp [hblank])]
  refine ⟨skipWs buf es s, skipWs buf es (skipWs buf es s + 1), ?_, ?_⟩
  · simp only [gettoken, scanToken_sym hes (skipWs_le_es hes hs) h1 hc]
  apply cursor_skipWs
  apply cursor_of_ahead
  rw [ahead_add 1, h1]
  rfl

theorem gettoken_gt {r : List Char} (hs : s ≤ es) (h : Cursor buf es s ('>' :: r))
    (hr : r.headD '\x00' ≠ '>') :
    ∃ q s', gettoken buf es s = .ok ⟨'>', q, q + 1⟩ s' ∧ Cursor buf es s' r := by
  have h1 : ahead buf es (skipWs buf es s) = '>' :: r := by
    rw [ahead_skipWs_of_cursor h, List.dropWhile_cons, if_neg (by decide)]
  refine ⟨skipWs buf es s, skipWs buf es (skipWs buf es s + 1), ?_, ?_⟩
  · simp only [gettoken, scanToken_gt hes (skipWs_le_es hes hs) h1 hr]
  apply cursor_skipWs
  apply cursor_of_ahead
  rw [ahead_add 1, h1]
  rfl

/-- A word at the cursor: `gettoken` returns `'a'` with `q` and `eq` around it. -/
theorem gettoken_word {w r : List Char} (hs : s ≤ es) (h : Cursor buf es s (w ++ r))
    (hw : IsWord w) (hr : wordChar (r.headD '\x00') = false) :
    ∃ q s', gettoken buf es s = .ok ⟨'a', q, q + w.length⟩ s' ∧ ahead buf es q = w ++ r ∧
      Cursor buf es s' r := by
  obtain ⟨c, w', rfl⟩ := List.exists_cons_of_ne_nil hw.1
  have hblank : isWhitespace c = false := by
    have := hw.2 c List.mem_cons_self
    simp only [wordChar, Bool.and_eq_true, Bool.not_eq_true'] at this
    exact this.1.2
  have h1 : ahead buf es (skipWs buf es s) = (c :: w') ++ r := by
    rw [ahead_skipWs_of_cursor h, List.cons_append, List.dropWhile_cons, if_neg (by simp [hblank])]
  refine ⟨skipWs buf es s, skipWs buf es (skipWs buf es s + (c :: w').length), ?_, h1, ?_⟩
  · simp only [gettoken, scanToken_word hes (skipWs_le_es hes hs) h1 hw hr]
  apply cursor_skipWs
  apply cursor_of_ahead
  rw [ahead_add, h1, List.drop_left]

theorem gettoken_end (hs : s ≤ es) (h : Cursor buf es s []) :
    ∃ q s', gettoken buf es s = .ok ⟨'\x00', q, q⟩ s' ∧ Cursor buf es s' [] := by
  have h1 : ahead buf es (skipWs buf es s) = [] := by
    rw [ahead_skipWs_of_cursor h]
    rfl
  refine ⟨skipWs buf es s, skipWs buf es (skipWs buf es s),
    by simp only [gettoken, scanToken_end hes (skipWs_le_es hes hs) h1], ?_⟩
  rw [skipWs_skipWs]
  exact cursor_of_ahead h1

theorem lt_of_charAt_ne_nul (hs : s ≤ es) (h : charAt buf s ≠ '\x00') : s < es := by
  by_contra hge
  rw [charAt_eq_headD hes hs, ahead_of_le (by omega)] at h
  exact h rfl

/-- Past the blanks the cursor is not on a blank. -/
theorem isWhitespace_charAt_skipWs (hs : s ≤ es) :
    isWhitespace (charAt buf (skipWs buf es s)) = false := by
  rw [charAt_eq_headD hes (skipWs_le_es hes hs), ahead_skipWs]
  cases hl : (ahead buf es s).dropWhile isWhitespace with
  | nil => rfl
  | cons c l =>
    have hc := @List.head_dropWhile_not _ isWhitespace (ahead buf es s) (by simp [hl])
    simp only [hl, List.head_cons] at hc
    simpa using hc

/-- From a position that is not on a blank, the `switch` moves `s` forward, by one character at
least for any token but the end, and no further than `es`. -/
theorem scanToken_progress (hs : s ≤ es) (hnb : isWhitespace (charAt buf s) = false) :
    s ≤ (scanToken buf es s).2 ∧ (scanToken buf es s).2 ≤ es ∧
      ((scanToken buf es s).1 = '\x00' ↔ charAt buf s = '\x00') ∧
      ((scanToken buf es s).1 ≠ '\x00' → s < (scanToken buf es s).2) := by
  unfold scanToken
  dsimp only
  by_cases h0 : charAt buf s = '\x00'
  · rw [if_pos h0]
    exact ⟨le_rfl, hs, by simp [h0], fun h => absurd h0 h⟩
  have hlt := lt_of_charAt_ne_nul hes hs h0
  rw [if_neg h0]
  by_cases hsym : charAt buf s ∈ ['|', '(', ')', ';', '&', '<']
  · rw [if_pos hsym]
    exact ⟨by omega, hlt, by simp [h0], fun _ => by omega⟩
  rw [if_neg hsym]
  by_cases hgt : charAt buf s = '>'
  · rw [if_pos hgt]
    by_cases hgt2 : charAt buf (s + 1) = '>'
    · -- `>>`: the second `>` is before `es` too
      have hlt2 := lt_of_charAt_ne_nul hes (s := s + 1) (by omega) (by rw [hgt2]; decide)
      rw [if_pos hgt2]
      exact ⟨by omega, by omega, by simp [h0], fun _ => by omega⟩
    · rw [if_neg hgt2]
      exact ⟨by omega, by omega, by simp [h0], fun _ => by omega⟩
  rw [if_neg hgt]
  -- a word: its first character is neither a blank nor a symbol
  have hsymb : isSymbol (charAt buf s) = false := by
    rcases hb : isSymbol (charAt buf s) with _ | _
    · rfl
    · have hm := mem_of_strchr_isSome hb
      simp only [symbols, List.mem_cons, List.not_mem_nil, or_false] at hm
      rcases hm with h | h | h | h | h | h | h <;> simp [h] at hsym hgt
  have hlen : ((ahead buf es s).takeWhile fun c => !isWhitespace c && !isSymbol c).length ≤
      es - s := length_ahead (hes ▸ strlen_le buf) (s := s) ▸ (List.takeWhile_sublist _).length_le
  rw [ahead_eq_cons (hes ▸ strlen_le buf) hlt, List.takeWhile_cons_of_pos (by simp [hnb, hsymb])]
    at hlen ⊢
  simp only [List.length_cons] at hlen ⊢
  exact ⟨by omega, by omega, by simp [h0], fun _ => by omega⟩

/-- `gettoken` moves the cursor forward, no further than `es`, and past any token but the end by
one character at least. -/
theorem gettoken_progress {t : Token} {s' : Nat} (hs : s ≤ es) (h : gettoken buf es s = .ok t s') :
    s ≤ s' ∧ s' ≤ es ∧ (t.tok = '\x00' ↔ charAt buf (skipWs buf es s) = '\x00') ∧
      (t.tok ≠ '\x00' → s < s') := by
  have hs1 := skipWs_le_es hes hs
  obtain ⟨h1, h2, h3, h4⟩ := scanToken_progress hes hs1 (isWhitespace_charAt_skipWs hes hs)
  simp only [gettoken] at h
  obtain ⟨rfl, rfl⟩ := Res.ok.inj h
  have hle : s ≤ skipWs buf es s := Nat.le_add_right _ _
  have hle2 : _ ≤ skipWs buf es (scanToken buf es (skipWs buf es s)).2 := Nat.le_add_right _ _
  exact ⟨by omega, skipWs_le_es hes h2, h3, fun ht => by have := h4 ht; omega⟩

theorem peek_progress {toks : List Char} {b : Bool} {s' : Nat} (hs : s ≤ es)
    (h : peek buf es toks s = .ok b s') :
    s ≤ s' ∧ s' ≤ es ∧ s' = skipWs buf es s ∧ (b = true → charAt buf s' ≠ '\x00') := by
  simp only [peek] at h
  obtain ⟨rfl, rfl⟩ := Res.ok.inj h
  refine ⟨Nat.le_add_right _ _, skipWs_le_es hes hs, rfl, fun hb => ?_⟩
  simp only [Bool.and_eq_true, bne_iff_ne] at hb
  exact hb.1

/-- A token `peek` has seen is taken by the `gettoken` after it. -/
theorem peek_gettoken_advance {toks : List Char} {t : Token} {s1 s2 : Nat} (hs : s ≤ es)
    (hp : peek buf es toks s = .ok true s1) (hg : gettoken buf es s1 = .ok t s2) : s1 < s2 := by
  obtain ⟨-, hs1, rfl, hc⟩ := peek_progress hes hs hp
  obtain ⟨-, -, htok, hadv⟩ := gettoken_progress hes hs1 hg
  rw [skipWs_skipWs] at htok
  exact hadv fun h0 => hc rfl (htok.mp h0)

end Tokens

end LexerSpec

/-! ## The parser -/

/-- `struct cmd`, with words of type `w`: `(q, eq)` pointer pairs into the buffer in what the
parser builds. `redir` holds `cmd`, `file`, `mode` and `fd` as `redircmd` takes them. -/
inductive Cmd (w : Type) where
  | exec (argv : List w)
  | redir (cmd : Cmd w) (file : w) (mode : Int32) (fd : Int32)
  | pipe (left right : Cmd w)
  | list (left right : Cmd w)
  | back (cmd : Cmd w)
deriving DecidableEq, Repr

/-- The same tree with every word replaced by `f` of it. -/
def Cmd.map {α β : Type} (f : α → β) : Cmd α → Cmd β
  | .exec argv => .exec (argv.map f)
  | .redir c file mode fd => .redir (c.map f) (f file) mode fd
  | .pipe l r => .pipe (l.map f) (r.map f)
  | .list l r => .list (l.map f) (r.map f)
  | .back c => .back (c.map f)

/-- `cmd->argv[argc] = q` in `parseexec`: the `execcmd` under the redirections gets its words. -/
def Cmd.setArgv {w : Type} (argv : List w) : Cmd w → Cmd w
  | .exec _ => .exec argv
  | .redir c file mode fd => .redir (c.setArgv argv) file mode fd
  | c => c

/-- `fcntl.h`: `#define O_WRONLY 0x001` -/
def O_WRONLY : Int32 := 0x001

section Parser

variable (buf : List Char) (es : Nat)

/-- The `while(peek(ps, es, "<>"))` loop of `parseredirs`, for at most `fuel` turns. -/
def parseredirs : Nat → Cmd (Nat × Nat) → P (Cmd (Nat × Nat))
  | 0, _ => fun _ => .stuck
  | fuel + 1, cmd => do
    if (← peek buf es ['<', '>']) then
      let tok ← gettoken buf es
      let file ← gettoken buf es
      if file.tok ≠ 'a' then panic "missing file for redirection"
      else
        let cmd :=
          if tok.tok = '<' then .redir cmd (file.q, file.eq) O_RDONLY 0
          else if tok.tok = '>' then .redir cmd (file.q, file.eq) (O_WRONLY ||| O_CREATE) 1
          else if tok.tok = '+' then .redir cmd (file.q, file.eq) (O_WRONLY ||| O_CREATE) 1
          else cmd
        parseredirs fuel cmd
    else pure cmd

/-- The `while(peek(ps, es, "&"))` loop of `parseline`: a `backcmd` around `cmd` for each `&`. -/
def backLoop : Nat → Cmd (Nat × Nat) → P (Cmd (Nat × Nat))
  | 0, _ => fun _ => .stuck
  | fuel + 1, cmd => do
    if (← peek buf es ['&']) then
      let _ ← gettoken buf es
      backLoop fuel (.back cmd)
    else pure cmd

/-- The `while(!peek(ps, es, "|)&;"))` loop of `parseexec`, with the words read so far and `ret`,
the `execcmd` with the redirections read so far around it. -/
def execLoop : Nat → List (Nat × Nat) → Cmd (Nat × Nat) → P (List (Nat × Nat) × Cmd (Nat × Nat))
  | 0, _, _ => fun _ => .stuck
  | fuel + 1, argv, ret => do
    if (← peek buf es ['|', ')', '&', ';']) then pure (argv, ret)
    else
      let t ← gettoken buf es
      if t.tok = '\x00' then pure (argv, ret)
      else if t.tok ≠ 'a' then panic "syntax"
      else
        let argv := argv ++ [(t.q, t.eq)]
        if MAXARGS ≤ argv.length then panic "too many args"
        else
          let ret ← parseredirs buf es (es + 1) ret
          execLoop fuel argv ret

mutual

/-- `parseline(ps, es)` -/
def parseline : Nat → P (Cmd (Nat × Nat))
  | 0 => fun _ => .stuck
  | fuel + 1 => do
    let cmd ← parsepipe fuel
    let cmd ← backLoop buf es (es + 1) cmd
    if (← peek buf es [';']) then
      let _ ← gettoken buf es
      let right ← parseline fuel
      pure (.list cmd right)
    else pure cmd

/-- `parsepipe(ps, es)` -/
def parsepipe : Nat → P (Cmd (Nat × Nat))
  | 0 => fun _ => .stuck
  | fuel + 1 => do
    let cmd ← parseexec fuel
    if (← peek buf es ['|']) then
      let _ ← gettoken buf es
      let right ← parsepipe fuel
      pure (.pipe cmd right)
    else pure cmd

/-- `parseblock(ps, es)` -/
def parseblock : Nat → P (Cmd (Nat × Nat))
  | 0 => fun _ => .stuck
  | fuel + 1 => do
    if !(← peek buf es ['(']) then panic "parseblock"
    else
      let _ ← gettoken buf es
      let cmd ← parseline fuel
      if !(← peek buf es [')']) then panic "syntax - missing )"
      else
        let _ ← gettoken buf es
        parseredirs buf es (es + 1) cmd

/-- `parseexec(ps, es)` -/
def parseexec : Nat → P (Cmd (Nat × Nat))
  | 0 => fun _ => .stuck
  | fuel + 1 => do
    if (← peek buf es ['(']) then parseblock fuel
    else
      let ret ← parseredirs buf es (es + 1) (.exec [])
      let (argv, ret) ← execLoop buf es (es + 1) [] ret
      pure (ret.setArgv argv)

end

end Parser

/-- `nulterminate(cmd)`: a `NUL` at the end of every word. -/
def nulterminate : Cmd (Nat × Nat) → List Char → List Char
  | .exec argv, buf => argv.foldl (fun buf p => buf.set p.2 '\x00') buf
  | .redir c file _ _, buf => (nulterminate c buf).set file.2 '\x00'
  | .pipe l r, buf => nulterminate r (nulterminate l buf)
  | .list l r, buf => nulterminate r (nulterminate l buf)
  | .back c, buf => nulterminate c buf

/-- `parsecmd(s)`: the tree and the buffer `nulterminate` leaves, or what `panic` writes. -/
def parsecmd (buf : List Char) : Res (Cmd (Nat × Nat) × List Char) :=
  let es := strlen buf
  (do
    let cmd ← parseline buf es (5 * es + 5)
    let _ ← peek buf es []
    let s ← pos
    if s ≠ es then exit ("leftovers: ".toList ++ cstrAt buf s ++ ['\n'] ++ "syntax\n".toList)
    else pure (cmd, nulterminate cmd buf)) 0

example : parsecmd "echo a > f | wc&".toList =
    .ok (.back (.pipe (.redir (.exec [(0, 4), (5, 6)]) (9, 10) (O_WRONLY ||| O_CREATE) 1)
      (.exec [(13, 15)])), "echo\x00a\x00> f\x00| wc\x00".toList) 16 := by
  decide +kernel

/-! ## Running a parser -/

section Run

variable {α β : Type}

theorem bind_ok {x : P α} {f : α → P β} {s s' : Nat} {a : α} (h : x s = .ok a s') :
    (x >>= f) s = f a s' := by
  show P.bind x f s = _
  simp only [P.bind, h]

theorem bind_panic {x : P α} {f : α → P β} {s : Nat} {err : List Char} (h : x s = .panic err) :
    (x >>= f) s = .panic err := by
  show P.bind x f s = _
  simp only [P.bind, h]

theorem bind_stuck {x : P α} {f : α → P β} {s : Nat} (h : x s = .stuck) : (x >>= f) s = .stuck := by
  show P.bind x f s = _
  simp only [P.bind, h]

/-- The outcome of a parser run from `s`: the cursor moved forward to at most `es`, or a
`panic`, but not out of fuel. -/
def Res.Progress (es s : Nat) : Res α → Prop
  | .ok _ s' => s ≤ s' ∧ s' ≤ es
  | .panic _ => True
  | .stuck => False

variable {es : Nat}

theorem Res.Progress.mono {r : Res α} {s s' : Nat} (h : r.Progress es s') (hle : s ≤ s') :
    r.Progress es s := by
  cases r with
  | ok a t => exact ⟨hle.trans h.1, h.2⟩
  | panic err => trivial
  | stuck => exact h

theorem progress_pure {a : α} {s : Nat} (hs : s ≤ es) : ((pure a : P α) s).Progress es s :=
  ⟨le_rfl, hs⟩

theorem progress_panic {msg : String} {s : Nat} : ((panic msg : P α) s).Progress es s := trivial

/-- The rule for `bind`: `x` makes progress, and so does `f` from wherever `x` stops. -/
theorem progress_bind {x : P α} {f : α → P β} {s : Nat} (hx : (x s).Progress es s)
    (hf : ∀ a s', x s = .ok a s' → s ≤ s' → s' ≤ es → (f a s').Progress es s') :
    ((x >>= f) s).Progress es s := by
  cases hxs : x s with
  | ok a s' =>
    rw [hxs] at hx
    rw [bind_ok hxs]
    exact (hf a s' hxs hx.1 hx.2).mono hx.1
  | panic err => rw [bind_panic hxs]; trivial
  | stuck => rw [hxs] at hx; exact hx.elim

/-- `y` gives what `x` gives wherever `x` does not run out of fuel. -/
def Extends (x y : P α) : Prop := ∀ s, x s ≠ .stuck → y s = x s

theorem Extends.refl (x : P α) : Extends x x := fun _ _ => rfl

theorem Extends.ok {x y : P α} (h : Extends x y) {s s' : Nat} {a : α} (hx : x s = .ok a s') :
    y s = .ok a s' := by
  rw [h s (by simp [hx]), hx]

theorem Extends.bind {x x' : P α} {f f' : α → P β} (hx : Extends x x')
    (hf : ∀ a, Extends (f a) (f' a)) : Extends (x >>= f) (x' >>= f') := by
  intro s h
  cases hxs : x s with
  | ok a s' =>
    rw [bind_ok hxs] at h ⊢
    rw [bind_ok ((hx s (by simp [hxs])).trans hxs)]
    exact hf a s' h
  | panic err =>
    rw [bind_panic hxs, bind_panic ((hx s (by simp [hxs])).trans hxs)]
  | stuck => exact absurd (bind_stuck hxs) h

end Run

/-! ## The parser runs out of fuel on no input

Each turn of a loop takes a token, so `es + 1` turns are enough; and each call of `parseline`,
`parsepipe`, `parseexec` or `parseblock` either takes a token before it calls the next or goes one
level down that cycle, so fuel `4 (es - s) + 4` is enough for `parseline`. -/

section Termination

variable {buf : List Char} {es : Nat} (hes : es = strlen buf)
include hes

theorem progress_peek {toks : List Char} {s : Nat} (hs : s ≤ es) :
    (peek buf es toks s).Progress es s := by
  obtain ⟨b, s', hp⟩ : ∃ b s', peek buf es toks s = .ok b s' := ⟨_, _, rfl⟩
  obtain ⟨h1, h2, -⟩ := peek_progress hes hs hp
  rw [hp]
  exact ⟨h1, h2⟩

theorem progress_gettoken {s : Nat} (hs : s ≤ es) : (gettoken buf es s).Progress es s := by
  obtain ⟨t, s', hg⟩ : ∃ t s', gettoken buf es s = .ok t s' := ⟨_, _, rfl⟩
  obtain ⟨h1, h2, -⟩ := gettoken_progress hes hs hg
  rw [hg]
  exact ⟨h1, h2⟩

theorem progress_parseredirs (fuel : Nat) (cmd : Cmd (Nat × Nat)) (s : Nat) (hs : s ≤ es)
    (hf : es - s < fuel) : (parseredirs buf es fuel cmd s).Progress es s := by
  induction fuel generalizing cmd s with
  | zero => omega
  | succ fuel ih =>
    rw [parseredirs]
    apply progress_bind (progress_peek hes hs)
    intro b s1 hp hs1 hs1e
    cases b with
    | false => exact progress_pure hs1e
    | true =>
      apply progress_bind (progress_gettoken hes hs1e)
      intro tok s2 hg hs2 hs2e
      have hadv := peek_gettoken_advance hes hs hp hg
      apply progress_bind (progress_gettoken hes hs2e)
      intro file s3 _ hs3 hs3e
      dsimp only
      split
      · exact progress_panic
      · exact ih _ _ hs3e (by omega)

theorem progress_backLoop (fuel : Nat) (cmd : Cmd (Nat × Nat)) (s : Nat) (hs : s ≤ es)
    (hf : es - s < fuel) : (backLoop buf es fuel cmd s).Progress es s := by
  induction fuel generalizing cmd s with
  | zero => omega
  | succ fuel ih =>
    rw [backLoop]
    apply progress_bind (progress_peek hes hs)
    intro b s1 hp hs1 hs1e
    cases b with
    | false => exact progress_pure hs1e
    | true =>
      apply progress_bind (progress_gettoken hes hs1e)
      intro tok s2 hg hs2 hs2e
      have hadv := peek_gettoken_advance hes hs hp hg
      exact ih _ _ hs2e (by omega)

theorem progress_execLoop (fuel : Nat) (argv : List (Nat × Nat)) (ret : Cmd (Nat × Nat)) (s : Nat)
    (hs : s ≤ es) (hf : es - s < fuel) : (execLoop buf es fuel argv ret s).Progress es s := by
  induction fuel generalizing argv ret s with
  | zero => omega
  | succ fuel ih =>
    rw [execLoop]
    apply progress_bind (progress_peek hes hs)
    intro b s1 hp hs1 hs1e
    cases b with
    | true => exact progress_pure hs1e
    | false =>
      apply progress_bind (progress_gettoken hes hs1e)
      intro t s2 hg hs2 hs2e
      obtain ⟨-, -, -, hadv⟩ := gettoken_progress hes hs1e hg
      dsimp only
      split
      · exact progress_pure hs2e
      split
      · exact progress_panic
      split
      · exact progress_panic
      · rename_i hnul _ _
        have := hadv hnul
        apply progress_bind (progress_parseredirs hes _ _ _ hs2e (by omega))
        intro ret' s3 _ hs3 hs3e
        exact ih _ _ _ hs3e (by omega)

/-- With fuel `4 (es - s) + 4`, `+ 3`, `+ 2` and `+ 1`, `parseline`, `parsepipe`, `parseexec` and
`parseblock` return or panic. -/
theorem parse_progress (fuel : Nat) : ∀ s, s ≤ es →
    (4 * (es - s) + 4 ≤ fuel → (parseline buf es fuel s).Progress es s) ∧
    (4 * (es - s) + 3 ≤ fuel → (parsepipe buf es fuel s).Progress es s) ∧
    (4 * (es - s) + 2 ≤ fuel → (parseexec buf es fuel s).Progress es s) ∧
    (4 * (es - s) + 1 ≤ fuel → (parseblock buf es fuel s).Progress es s) := by
  induction fuel with
  | zero => intro s _; refine ⟨?_, ?_, ?_, ?_⟩ <;> intro h <;> omega
  | succ fuel ih =>
    intro s hs
    refine ⟨fun hf => ?_, fun hf => ?_, fun hf => ?_, fun hf => ?_⟩
    · -- `parseline`: a pipeline, the `&`s, then a `;` and a line after it
      rw [parseline]
      apply progress_bind ((ih s hs).2.1 (by omega))
      intro cmd s1 _ hs1 hs1e
      apply progress_bind (progress_backLoop hes _ _ _ hs1e (by omega))
      intro cmd s2 _ hs2 hs2e
      apply progress_bind (progress_peek hes hs2e)
      intro b s3 hp hs3 hs3e
      cases b with
      | false => exact progress_pure hs3e
      | true =>
        apply progress_bind (progress_gettoken hes hs3e)
        intro t s4 hg hs4 hs4e
        have hadv := peek_gettoken_advance hes hs2e hp hg
        apply progress_bind ((ih s4 hs4e).1 (by omega))
        intro right s5 _ hs5 hs5e
        exact progress_pure hs5e
    · -- `parsepipe`: a command, then a `|` and a pipeline after it
      rw [parsepipe]
      apply progress_bind ((ih s hs).2.2.1 (by omega))
      intro cmd s1 _ hs1 hs1e
      apply progress_bind (progress_peek hes hs1e)
      intro b s2 hp hs2 hs2e
      cases b with
      | false => exact progress_pure hs2e
      | true =>
        apply progress_bind (progress_gettoken hes hs2e)
        intro t s3 hg hs3 hs3e
        have hadv := peek_gettoken_advance hes hs1e hp hg
        apply progress_bind ((ih s3 hs3e).2.1 (by omega))
        intro right s4 _ hs4 hs4e
        exact progress_pure hs4e
    · -- `parseexec`: a block one level down, or words and redirections by the loops
      rw [parseexec]
      apply progress_bind (progress_peek hes hs)
      intro b s1 _ hs1 hs1e
      cases b with
      | true => exact (ih s1 hs1e).2.2.2 (by omega)
      | false =>
        apply progress_bind (progress_parseredirs hes _ _ _ hs1e (by omega))
        intro ret s2 _ hs2 hs2e
        apply progress_bind (progress_execLoop hes _ _ _ _ hs2e (by omega))
        intro r s3 _ hs3 hs3e
        exact progress_pure hs3e
    · -- `parseblock`: `(` is taken before the line inside
      rw [parseblock]
      apply progress_bind (progress_peek hes hs)
      intro b s1 hp hs1 hs1e
      cases b with
      | false => exact progress_panic
      | true =>
        apply progress_bind (progress_gettoken hes hs1e)
        intro t s2 hg hs2 hs2e
        have hadv := peek_gettoken_advance hes hs hp hg
        apply progress_bind ((ih s2 hs2e).1 (by omega))
        intro cmd s3 _ hs3 hs3e
        apply progress_bind (progress_peek hes hs3e)
        intro b s4 _ hs4 hs4e
        cases b with
        | false => exact progress_panic
        | true =>
          apply progress_bind (progress_gettoken hes hs4e)
          intro t s5 _ hs5 hs5e
          exact progress_parseredirs hes _ _ _ hs5e (by omega)

end Termination

/-- `parsecmd` returns a tree or panics on every input: it never runs out of fuel. -/
theorem parsecmd_ne_stuck (buf : List Char) : parsecmd buf ≠ .stuck := by
  have hes : strlen buf = strlen buf := rfl
  have hp : (parseline buf (strlen buf) (5 * strlen buf + 5) 0).Progress (strlen buf) 0 :=
    (parse_progress hes _ 0 (Nat.zero_le _)).1 (by omega)
  have hrun : (parsecmd buf).Progress (strlen buf) 0 := by
    apply progress_bind hp
    intro cmd s1 _ _ hs1e
    apply progress_bind (progress_peek hes hs1e)
    intro _ s2 _ _ hs2e
    apply progress_bind (show (pos s2).Progress (strlen buf) s2 from ⟨le_rfl, hs2e⟩)
    intro s3 s4 hpos _ _
    split
    · trivial
    · exact progress_pure (by cases hpos; exact hs2e)
  intro h
  rw [h] at hrun
  exact hrun


/-! ## Fuel is only a bound -/

section Mono

variable {buf : List Char} {es : Nat}

/-- More fuel gives what less fuel gives, wherever that does not run out. -/
theorem parse_extends (fuel : Nat) : ∀ k,
    Extends (parseline buf es fuel) (parseline buf es (fuel + k)) ∧
    Extends (parsepipe buf es fuel) (parsepipe buf es (fuel + k)) ∧
    Extends (parseexec buf es fuel) (parseexec buf es (fuel + k)) ∧
    Extends (parseblock buf es fuel) (parseblock buf es (fuel + k)) := by
  induction fuel with
  | zero =>
    intro k
    refine ⟨?_, ?_, ?_, ?_⟩ <;> intro s h <;> exact absurd rfl h
  | succ fuel ih =>
    intro k
    obtain ⟨hl, hp, he, hb⟩ := ih k
    rw [show fuel + 1 + k = fuel + k + 1 by omega]
    refine ⟨?_, ?_, ?_, ?_⟩
    · rw [parseline, parseline]
      refine hp.bind fun cmd => (Extends.refl _).bind fun cmd => (Extends.refl _).bind fun b => ?_
      cases b with
      | false => exact Extends.refl _
      | true => exact (Extends.refl _).bind fun _ => hl.bind fun _ => Extends.refl _
    · rw [parsepipe, parsepipe]
      refine he.bind fun cmd => (Extends.refl _).bind fun b => ?_
      cases b with
      | false => exact Extends.refl _
      | true => exact (Extends.refl _).bind fun _ => hp.bind fun _ => Extends.refl _
    · rw [parseexec, parseexec]
      refine (Extends.refl _).bind fun b => ?_
      cases b with
      | false => exact Extends.refl _
      | true => exact hb
    · rw [parseblock, parseblock]
      refine (Extends.refl _).bind fun b => ?_
      cases b with
      | false => exact Extends.refl _
      | true => exact (Extends.refl _).bind fun _ => hl.bind fun _ => Extends.refl _

theorem parseline_mono {fuel fuel' s s' : Nat} {c : Cmd (Nat × Nat)}
    (h : parseline buf es fuel s = .ok c s') (hle : fuel ≤ fuel') :
    parseline buf es fuel' s = .ok c s' := by
  obtain ⟨k, rfl⟩ := Nat.exists_eq_add_of_le hle
  exact (parse_extends fuel k).1.ok h

theorem parsepipe_mono {fuel fuel' s s' : Nat} {c : Cmd (Nat × Nat)}
    (h : parsepipe buf es fuel s = .ok c s') (hle : fuel ≤ fuel') :
    parsepipe buf es fuel' s = .ok c s' := by
  obtain ⟨k, rfl⟩ := Nat.exists_eq_add_of_le hle
  exact (parse_extends fuel k).2.1.ok h

theorem parseexec_mono {fuel fuel' s s' : Nat} {c : Cmd (Nat × Nat)}
    (h : parseexec buf es fuel s = .ok c s') (hle : fuel ≤ fuel') :
    parseexec buf es fuel' s = .ok c s' := by
  obtain ⟨k, rfl⟩ := Nat.exists_eq_add_of_le hle
  exact (parse_extends fuel k).2.2.1.ok h

theorem parseblock_mono {fuel fuel' s s' : Nat} {c : Cmd (Nat × Nat)}
    (h : parseblock buf es fuel s = .ok c s') (hle : fuel ≤ fuel') :
    parseblock buf es fuel' s = .ok c s' := by
  obtain ⟨k, rfl⟩ := Nat.exists_eq_add_of_le hle
  exact (parse_extends fuel k).2.2.2.ok h

end Mono

/-! ## One turn of each function

What a function does once the results of the calls it makes are known; the proofs below cite
these and never unfold the functions. -/

section Turns

variable {buf : List Char} {es fuel s s1 s2 s3 : Nat}

theorem parseredirs_stop {cmd : Cmd (Nat × Nat)} (hp : peek buf es ['<', '>'] s = .ok false s1) :
    parseredirs buf es (fuel + 1) cmd s = .ok cmd s1 := by
  rw [parseredirs, bind_ok hp]
  rfl

theorem parseredirs_step {cmd : Cmd (Nat × Nat)} {tok file : Token}
    (hp : peek buf es ['<', '>'] s = .ok true s1) (h1 : gettoken buf es s1 = .ok tok s2)
    (h2 : gettoken buf es s2 = .ok file s3) (ha : file.tok = 'a') :
    parseredirs buf es (fuel + 1) cmd s = parseredirs buf es fuel
      (if tok.tok = '<' then .redir cmd (file.q, file.eq) O_RDONLY 0
        else if tok.tok = '>' then .redir cmd (file.q, file.eq) (O_WRONLY ||| O_CREATE) 1
        else if tok.tok = '+' then .redir cmd (file.q, file.eq) (O_WRONLY ||| O_CREATE) 1
        else cmd) s3 := by
  rw [parseredirs, bind_ok hp]
  simp only [↓reduceIte]
  rw [bind_ok h1, bind_ok h2]
  simp only [ha, ne_eq, not_true_eq_false, ↓reduceIte]

theorem backLoop_stop {cmd : Cmd (Nat × Nat)} (hp : peek buf es ['&'] s = .ok false s1) :
    backLoop buf es (fuel + 1) cmd s = .ok cmd s1 := by
  rw [backLoop, bind_ok hp]
  rfl

theorem backLoop_step {cmd : Cmd (Nat × Nat)} {t : Token} (hp : peek buf es ['&'] s = .ok true s1)
    (h1 : gettoken buf es s1 = .ok t s2) :
    backLoop buf es (fuel + 1) cmd s = backLoop buf es fuel (.back cmd) s2 := by
  rw [backLoop, bind_ok hp]
  simp only [↓reduceIte]
  rw [bind_ok h1]

theorem execLoop_stop {argv : List (Nat × Nat)} {ret : Cmd (Nat × Nat)}
    (hp : peek buf es ['|', ')', '&', ';'] s = .ok true s1) :
    execLoop buf es (fuel + 1) argv ret s = .ok (argv, ret) s1 := by
  rw [execLoop, bind_ok hp]
  rfl

theorem execLoop_end {argv : List (Nat × Nat)} {ret : Cmd (Nat × Nat)} {t : Token}
    (hp : peek buf es ['|', ')', '&', ';'] s = .ok false s1) (h1 : gettoken buf es s1 = .ok t s2)
    (ht : t.tok = '\x00') : execLoop buf es (fuel + 1) argv ret s = .ok (argv, ret) s2 := by
  rw [execLoop, bind_ok hp]
  simp only [Bool.false_eq_true, ↓reduceIte]
  rw [bind_ok h1]
  simp only [ht, ↓reduceIte]
  rfl

theorem execLoop_word {argv : List (Nat × Nat)} {ret ret' : Cmd (Nat × Nat)} {t : Token}
    (hp : peek buf es ['|', ')', '&', ';'] s = .ok false s1) (h1 : gettoken buf es s1 = .ok t s2)
    (ht : t.tok = 'a') (hmax : (argv ++ [(t.q, t.eq)]).length < MAXARGS)
    (hr : parseredirs buf es (es + 1) ret s2 = .ok ret' s3) :
    execLoop buf es (fuel + 1) argv ret s = execLoop buf es fuel (argv ++ [(t.q, t.eq)]) ret' s3 := by
  rw [execLoop, bind_ok hp]
  simp only [Bool.false_eq_true, ↓reduceIte]
  rw [bind_ok h1]
  simp only [ht, show ('a' : Char) ≠ '\x00' by decide, ne_eq, not_true_eq_false, ↓reduceIte,
    Nat.not_le.mpr hmax]
  rw [bind_ok hr]

variable {s4 s5 : Nat} {c1 c2 c3 : Cmd (Nat × Nat)} {t t' : Token}

theorem parseline_pipe (h1 : parsepipe buf es fuel s = .ok c1 s1)
    (h2 : backLoop buf es (es + 1) c1 s1 = .ok c2 s2) (hp : peek buf es [';'] s2 = .ok false s3) :
    parseline buf es (fuel + 1) s = .ok c2 s3 := by
  rw [parseline, bind_ok h1, bind_ok h2, bind_ok hp]
  rfl

theorem parseline_list (h1 : parsepipe buf es fuel s = .ok c1 s1)
    (h2 : backLoop buf es (es + 1) c1 s1 = .ok c2 s2) (hp : peek buf es [';'] s2 = .ok true s3)
    (hg : gettoken buf es s3 = .ok t s4) (h3 : parseline buf es fuel s4 = .ok c3 s5) :
    parseline buf es (fuel + 1) s = .ok (.list c2 c3) s5 := by
  rw [parseline, bind_ok h1, bind_ok h2, bind_ok hp]
  simp only [↓reduceIte]
  rw [bind_ok hg, bind_ok h3]
  rfl

theorem parsepipe_exec (h1 : parseexec buf es fuel s = .ok c1 s1)
    (hp : peek buf es ['|'] s1 = .ok false s2) : parsepipe buf es (fuel + 1) s = .ok c1 s2 := by
  rw [parsepipe, bind_ok h1, bind_ok hp]
  rfl

theorem parsepipe_pipe (h1 : parseexec buf es fuel s = .ok c1 s1)
    (hp : peek buf es ['|'] s1 = .ok true s2) (hg : gettoken buf es s2 = .ok t s3)
    (h3 : parsepipe buf es fuel s3 = .ok c2 s4) :
    parsepipe buf es (fuel + 1) s = .ok (.pipe c1 c2) s4 := by
  rw [parsepipe, bind_ok h1, bind_ok hp]
  simp only [↓reduceIte]
  rw [bind_ok hg, bind_ok h3]
  rfl

theorem parseexec_block (hp : peek buf es ['('] s = .ok true s1) :
    parseexec buf es (fuel + 1) s = parseblock buf es fuel s1 := by
  rw [parseexec, bind_ok hp]
  rfl

theorem parseexec_words {argv : List (Nat × Nat)} (hp : peek buf es ['('] s = .ok false s1)
    (h1 : parseredirs buf es (es + 1) (.exec []) s1 = .ok c1 s2)
    (h2 : execLoop buf es (es + 1) [] c1 s2 = .ok (argv, c2) s3) :
    parseexec buf es (fuel + 1) s = .ok (c2.setArgv argv) s3 := by
  rw [parseexec, bind_ok hp]
  simp only [Bool.false_eq_true, ↓reduceIte]
  rw [bind_ok h1, bind_ok h2]
  rfl

theorem parseblock_line (hp : peek buf es ['('] s = .ok true s1) (hg : gettoken buf es s1 = .ok t s2)
    (h1 : parseline buf es fuel s2 = .ok c1 s3) (hp2 : peek buf es [')'] s3 = .ok true s4)
    (hg2 : gettoken buf es s4 = .ok t' s5) :
    parseblock buf es (fuel + 1) s = parseredirs buf es (es + 1) c1 s5 := by
  rw [parseblock, bind_ok hp]
  simp only [Bool.not_true, Bool.false_eq_true, ↓reduceIte]
  rw [bind_ok hg, bind_ok h1, bind_ok hp2]
  simp only [Bool.not_true, Bool.false_eq_true, ↓reduceIte]
  rw [bind_ok hg2]

end Turns

end Sh

end Xv6
