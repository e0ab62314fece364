import Mathlib.Data.List.Basic

/-!
# `grep.c`: the Kernighan–Pike matcher and the read loop

* `matchhere`, `matchstar`, `match` : the matcher, with C strings as lists of characters (the
  characters before the `NUL`); `matchhere` is structural on the pattern and the loops of
  `matchstar` and `match` on the text, so the matcher is total;
* `items`, `ItemsMatch`, `MatchesAt` : what a pattern means, read left to right as single
  characters, starred characters and a final `$`;
* `match_iff` : `match` holds exactly when some substring of the text (a prefix after `^`, a
  suffix before a final `$`) matches the pattern's items;
* `strchr`, `scanLines`, `grepRead`, `grepRun` : the read loop of `grep`, one `read` per chunk;
* `grep_whole_lines` : when every read returns whole lines, `grep` writes the matching lines;
* `grep_chunking_drops_line` : a read that ends inside a line, with no newline before it in the
  buffer, makes `grep` throw the line's start away (`if(p == buf) m = 0;`).
-/

namespace Xv6

/-! ## The matcher -/

/-- The loop of `matchstar` for the item `c*`, `m` matching the rest of the pattern: try `m`, then
take one more `c` (any character if `c` is `.`) while the text lasts. -/
def starLoop (c : Char) (m : List Char → Bool) : List Char → Bool
  | [] => m []
  | t :: text => m (t :: text) || ((t == c || c == '.') && starLoop c m text)

/-- `matchhere`: search for `re` at beginning of `text`. -/
def matchhere : List Char → List Char → Bool
  | [], _ => true
  | c :: '*' :: re, text => starLoop c (matchhere re) text
  | ['$'], text => text.isEmpty
  | c :: re, t :: text => (c == '.' || c == t) && matchhere re text
  | _ :: _, [] => false

/-- `matchstar`: search for `c*re` at beginning of `text`. -/
def matchstar (c : Char) (re text : List Char) : Bool := starLoop c (matchhere re) text

theorem matchhere_star (c : Char) (re text : List Char) :
    matchhere (c :: '*' :: re) text = matchstar c re text := by
  rw [matchhere, matchstar]

/-- The loop of `match`: `matchhere` at every suffix of `text`, the empty one included. -/
def matchLoop (re : List Char) : List Char → Bool
  | [] => matchhere re []
  | t :: text => matchhere re (t :: text) || matchLoop re text

/-- `match`: search for `re` anywhere in `text`. -/
def «match» : List Char → List Char → Bool
  | '^' :: re, text => matchhere re text
  | re, text => matchLoop re text

example : «match» "a*b$".toList "xaab".toList = true := by decide
example : «match» "^a.c".toList "xabc".toList = false := by decide

/-! ## What a pattern means -/

/-- An item of a pattern: a character, or a character followed by `*`. -/
inductive Item where
  | one (c : Char)
  | star (c : Char)

/-- The pattern character `c` matches the text character `t`: `.` matches any. -/
def fits (c t : Char) : Prop := c = '.' ∨ c = t

/-- The pattern split left to right into items, and whether it ends in the anchor `$` (a `$` that
is the last character). -/
def items : List Char → List Item × Bool
  | [] => ([], false)
  | c :: '*' :: re => (.star c :: (items re).1, (items re).2)
  | ['$'] => ([], true)
  | c :: re => (.one c :: (items re).1, (items re).2)

/-- The texts a sequence of items matches, all of them. -/
inductive ItemsMatch : List Item → List Char → Prop
  | nil : ItemsMatch [] []
  | one {c t : Char} {is : List Item} {u : List Char} :
      fits c t → ItemsMatch is u → ItemsMatch (.one c :: is) (t :: u)
  | star {c : Char} {is : List Item} {v u : List Char} :
      (∀ t ∈ v, fits c t) → ItemsMatch is u → ItemsMatch (.star c :: is) (v ++ u)

/-- `re` matches at the start of `text`: a prefix of `text` matches its items, all of `text` when
the pattern ends in `$`. -/
def MatchesAt (re text : List Char) : Prop :=
  ∃ u v, text = u ++ v ∧ ItemsMatch (items re).1 u ∧ ((items re).2 = true → v = [])

section Items

variable {c : Char} {is : List Item} {u : List Char}

theorem itemsMatch_nil_iff : ItemsMatch [] u ↔ u = [] := by
  constructor
  · rintro ⟨⟩
    rfl
  · rintro rfl
    exact .nil

theorem itemsMatch_one_iff :
    ItemsMatch (.one c :: is) u ↔ ∃ t u', u = t :: u' ∧ fits c t ∧ ItemsMatch is u' := by
  constructor
  · rintro ⟨⟩
    rename_i t u' hc hm
    exact ⟨t, u', rfl, hc, hm⟩
  · rintro ⟨t, u', rfl, hc, hm⟩
    exact .one hc hm

theorem itemsMatch_star_iff :
    ItemsMatch (.star c :: is) u ↔
      ∃ v w, u = v ++ w ∧ (∀ t ∈ v, fits c t) ∧ ItemsMatch is w := by
  constructor
  · rintro ⟨⟩
    rename_i v w hv hm
    exact ⟨v, w, rfl, hv, hm⟩
  · rintro ⟨v, w, rfl, hv, hm⟩
    exact .star hv hm

end Items

/-! ## `matchhere` decides `MatchesAt` -/

/-- The star loop holds when some run of characters that fit `c` leaves a rest that `m` matches. -/
theorem starLoop_iff (c : Char) (m : List Char → Bool) :
    ∀ text, starLoop c m text = true ↔
      ∃ v w, text = v ++ w ∧ (∀ t ∈ v, fits c t) ∧ m w = true
  | [] => by
    simp only [starLoop, List.nil_eq_append_iff]
    constructor
    · intro h
      exact ⟨[], [], ⟨rfl, rfl⟩, by simp, h⟩
    · rintro ⟨v, w, ⟨rfl, rfl⟩, -, h⟩
      exact h
  | t :: text => by
    simp only [starLoop, Bool.or_eq_true, Bool.and_eq_true, beq_iff_eq]
    rw [starLoop_iff c m text]
    constructor
    · rintro (h | ⟨hc, v, w, rfl, hv, hw⟩)
      · -- no more `c`: the whole text is the rest
        exact ⟨[], t :: text, rfl, by simp, h⟩
      · refine ⟨t :: v, w, rfl, ?_, hw⟩
        intro x hx
        rcases List.mem_cons.mp hx with rfl | hx
        · rcases hc with hc | hc
          · exact Or.inr hc.symm
          · exact Or.inl hc
        · exact hv x hx
    · rintro ⟨v, w, he, hv, hw⟩
      cases v with
      | nil =>
        rw [List.nil_append] at he
        exact Or.inl (he ▸ hw)
      | cons x v =>
        obtain ⟨rfl, rfl⟩ := List.cons_eq_cons.mp he
        have hx : fits c t := hv t List.mem_cons_self
        refine Or.inr ⟨?_, v, w, rfl, fun y hy => hv y (List.mem_cons_of_mem t hy), hw⟩
        rcases hx with hx | hx
        · exact Or.inr hx
        · exact Or.inl hx.symm

theorem matchesAt_nil (text : List Char) : MatchesAt [] text :=
  ⟨[], text, rfl, .nil, fun h => by simp [items] at h⟩

theorem matchesAt_dollar_iff (text : List Char) : MatchesAt ['$'] text ↔ text = [] := by
  simp only [MatchesAt, items, itemsMatch_nil_iff]
  constructor
  · rintro ⟨u, v, rfl, rfl, hv⟩
    simp [hv trivial]
  · rintro rfl
    exact ⟨[], [], rfl, rfl, fun _ => rfl⟩

theorem matchesAt_star_iff (c : Char) (re text : List Char) :
    MatchesAt (c :: '*' :: re) text ↔
      ∃ v w, text = v ++ w ∧ (∀ t ∈ v, fits c t) ∧ MatchesAt re w := by
  simp only [MatchesAt, items, itemsMatch_star_iff]
  constructor
  · rintro ⟨u, x, rfl, ⟨v, w, rfl, hv, hw⟩, hx⟩
    exact ⟨v, w ++ x, by rw [List.append_assoc], hv, w, x, rfl, hw, hx⟩
  · rintro ⟨v, w, rfl, hv, u, x, rfl, hu, hx⟩
    exact ⟨v ++ u, x, by rw [List.append_assoc], ⟨v, u, rfl, hv, hu⟩, hx⟩

section One

variable {c : Char} {re : List Char} (hs : ∀ re', re = '*' :: re' → False)
  (hd : c = '$' → re = [] → False)
include hs hd

/-- A character that is neither starred nor the final `$` is one item. -/
theorem items_one : items (c :: re) = (.one c :: (items re).1, (items re).2) :=
  items.eq_4 c re hs hd

theorem matchesAt_one_iff {t : Char} {text : List Char} :
    MatchesAt (c :: re) (t :: text) ↔ fits c t ∧ MatchesAt re text := by
  simp only [MatchesAt, items_one hs hd, itemsMatch_one_iff]
  constructor
  · rintro ⟨u, v, he, ⟨t', u', rfl, hc, hm⟩, hv⟩
    obtain ⟨rfl, rfl⟩ := List.cons_eq_cons.mp he
    exact ⟨hc, u', v, rfl, hm, hv⟩
  · rintro ⟨hc, u, v, rfl, hm, hv⟩
    exact ⟨t :: u, v, rfl, ⟨t, u, rfl, hc, hm⟩, hv⟩

theorem not_matchesAt_one_nil : ¬ MatchesAt (c :: re) [] := by
  simp only [MatchesAt, items_one hs hd, itemsMatch_one_iff]
  rintro ⟨u, v, he, ⟨t, u', rfl, -, -⟩, -⟩
  simp at he

end One

/-- `matchhere` decides `MatchesAt`, one case per case of its definition. -/
theorem matchhere_iff (re text : List Char) : matchhere re text = true ↔ MatchesAt re text := by
  fun_cases matchhere re text with
  | case1 text => exact iff_of_true rfl (matchesAt_nil text)
  | case2 c re text =>
    -- `c*`: the star loop over `matchhere re`, which decides `MatchesAt re` by recursion
    rw [starLoop_iff, matchesAt_star_iff]
    simp only [matchhere_iff re]
  | case3 text => rw [matchesAt_dollar_iff, List.isEmpty_iff]
  | case4 c re t text hs hd =>
    rw [matchesAt_one_iff hs hd, ← matchhere_iff re text]
    simp only [Bool.and_eq_true, Bool.or_eq_true, beq_iff_eq, fits]
  | case5 c re hs hd => exact iff_of_false (by simp) (not_matchesAt_one_nil hs hd)
termination_by re.length

/-- The loop of `match` finds a suffix of the text at which `matchhere` holds. -/
theorem matchLoop_iff (re : List Char) :
    ∀ text, matchLoop re text = true ↔ ∃ pre rest, text = pre ++ rest ∧ matchhere re rest = true
  | [] => by
    rw [matchLoop]
    constructor
    · intro h
      exact ⟨[], [], rfl, h⟩
    · rintro ⟨pre, rest, he, h⟩
      obtain ⟨rfl, rfl⟩ := List.nil_eq_append_iff.mp he
      exact h
  | t :: text => by
    rw [matchLoop, Bool.or_eq_true, matchLoop_iff re text]
    constructor
    · rintro (h | ⟨pre, rest, rfl, h⟩)
      · exact ⟨[], t :: text, rfl, h⟩
      · exact ⟨t :: pre, rest, rfl, h⟩
    · rintro ⟨pre, rest, he, h⟩
      cases pre with
      | nil =>
        rw [List.nil_append] at he
        subst he
        exact Or.inl h
      | cons x pre =>
        obtain ⟨rfl, rfl⟩ := List.cons_eq_cons.mp he
        exact Or.inr ⟨pre, rest, rfl, h⟩

/-- The pattern `match` hands to `matchhere`: without its leading `^`. -/
def dropCaret : List Char → List Char
  | '^' :: re => re
  | re => re

/-- `match re text` holds exactly when the text splits as `pre ++ rest` with `pre` empty after a
`^`, and the pattern matches at the start of `rest`: some substring of the text matches the
pattern's items, ending the text when the pattern ends in `$`. -/
theorem match_iff (re text : List Char) :
    «match» re text = true ↔
      ∃ pre rest, text = pre ++ rest ∧ (re.head? = some '^' → pre = []) ∧
        MatchesAt (dropCaret re) rest := by
  fun_cases «match» re text with
  | case1 re text =>
    -- after `^` only the prefix is tried
    rw [matchhere_iff, dropCaret]
    constructor
    · intro h
      exact ⟨[], text, rfl, fun _ => rfl, h⟩
    · rintro ⟨pre, rest, rfl, hpre, h⟩
      rw [hpre rfl]
      exact h
  | case2 re text hne =>
    have hh : re.head? ≠ some '^' := by
      intro h
      cases re with
      | nil => simp at h
      | cons x re' =>
        simp only [List.head?_cons, Option.some.injEq] at h
        exact hne re' (by rw [h])
    rw [matchLoop_iff, dropCaret.eq_2 re hne]
    simp only [matchhere_iff]
    constructor
    · rintro ⟨pre, rest, he, h⟩
      exact ⟨pre, rest, he, fun h' => absurd h' hh, h⟩
    · rintro ⟨pre, rest, he, -, h⟩
      exact ⟨pre, rest, he, h⟩

/-! ## The read loop -/

/-- `strchr(s, c)`: the index of the first `c` in the C string `s`, which ends at its first
`NUL`. -/
def strchr (s : List Char) (c : Char) : Option Nat :=
  match s with
  | [] => none
  | x :: s => if x = '\x00' then none else if x = c then some 0 else (strchr s c).map (· + 1)

theorem strchr_lt {s : List Char} {c : Char} {q : Nat} (h : strchr s c = some q) : q < s.length := by
  induction s generalizing q with
  | nil => simp [strchr] at h
  | cons x s ih =>
    simp only [strchr] at h
    split_ifs at h with h0 hc
    · simp only [Option.some.injEq] at h
      simp [← h]
    · obtain ⟨q', hq', rfl⟩ := Option.map_eq_some_iff.mp h
      simpa using ih hq'

theorem mem_of_strchr_isSome {l : List Char} {c : Char} (h : (strchr l c).isSome) : c ∈ l := by
  induction l with
  | nil => simp [strchr] at h
  | cons x l ih =>
    simp only [strchr] at h
    by_cases h0 : x = '\x00'
    · simp [h0] at h
    by_cases hc : x = c
    · exact hc ▸ List.mem_cons_self
    · rw [if_neg h0, if_neg hc, Option.isSome_map] at h
      exact List.mem_cons_of_mem x (ih h)

/-- A line with no newline and no `NUL`, then a newline: `strchr` finds that newline. -/
theorem strchr_line (l rest : List Char) (hl : '\n' ∉ l) (h0 : '\x00' ∉ l) :
    strchr (l ++ '\n' :: rest) '\n' = some l.length := by
  induction l with
  | nil => simp [strchr]
  | cons x l ih =>
    have hx : x ≠ '\x00' := fun e => h0 (e ▸ List.mem_cons_self)
    have hn : x ≠ '\n' := fun e => hl (e ▸ List.mem_cons_self)
    rw [List.cons_append, strchr, if_neg hx, if_neg hn,
      ih (fun h => hl (List.mem_cons_of_mem x h)) (fun h => h0 (List.mem_cons_of_mem x h))]
    rfl

/-- The inner loop of `grep` over the buffer from `p` on: each line up to a newline is written
when it matches. The result is what was written and the buffer from the first incomplete line
on. -/
def scanLines (pattern : List Char) (p : List Char) : List Char × List Char :=
  match h : strchr p '\n' with
  | some q =>
    let line := p.take q
    let out := if «match» pattern line then line ++ ['\n'] else []
    let r := scanLines pattern (p.drop (q + 1))
    (out ++ r.1, r.2)
  | none => ([], p)
termination_by p.length
decreasing_by
  have := strchr_lt h
  simp only [List.length_drop]
  omega

/-- One turn of `grep`'s read loop, from the bytes kept by the last turn and the output so far:
`read` appends `chunk`, the complete lines are scanned, and the rest is kept, or thrown away
when no line was complete (`if(p == buf) m = 0;`). -/
def grepRead (pattern : List Char) (st : List Char × List Char) (chunk : List Char) :
    List Char × List Char :=
  let buf := st.1 ++ chunk
  let r := scanLines pattern buf
  ((if r.2.length = buf.length then [] else r.2), st.2 ++ r.1)

/-- What `grep(pattern, fd)` writes when the reads of `fd` return `chunks`. -/
def grepRun (pattern : List Char) (chunks : List (List Char)) : List Char :=
  (chunks.foldl (grepRead pattern) ([], [])).2

/-- The lines of `ls` that `match` accepts, each followed by a newline: what `grep` is for. -/
def grepSpec (pattern : List Char) (ls : List (List Char)) : List Char :=
  (ls.filter fun l => «match» pattern l).flatMap (· ++ ['\n'])

theorem grepSpec_cons (pattern l : List Char) (ls : List (List Char)) :
    grepSpec pattern (l :: ls) =
      (if «match» pattern l then l ++ ['\n'] else []) ++ grepSpec pattern ls := by
  unfold grepSpec
  by_cases hm : «match» pattern l = true <;> simp [hm]

/-- A chunk of whole lines leaves nothing in the buffer. -/
theorem scanLines_lines (pattern : List Char) :
    ∀ ls : List (List Char), (∀ l ∈ ls, '\n' ∉ l ∧ '\x00' ∉ l) →
      scanLines pattern (ls.flatMap (· ++ ['\n'])) = (grepSpec pattern ls, [])
  | [], _ => by
    rw [List.flatMap_nil, scanLines]
    rfl
  | l :: ls, h => by
    obtain ⟨hl, h0⟩ := h l List.mem_cons_self
    have ih := scanLines_lines pattern ls (fun l' hl' => h l' (List.mem_cons_of_mem l hl'))
    have hsplit : (l :: ls).flatMap (· ++ ['\n']) = l ++ '\n' :: ls.flatMap (· ++ ['\n']) := by
      simp
    rw [hsplit, scanLines]
    split
    · rename_i q hq
      rw [strchr_line l _ hl h0, Option.some.injEq] at hq
      subst hq
      -- the line is `l`, and the scan goes on after its newline
      have hdrop : (l ++ '\n' :: ls.flatMap (· ++ ['\n'])).drop (l.length + 1) =
          ls.flatMap (· ++ ['\n']) := by
        rw [show l ++ '\n' :: ls.flatMap (· ++ ['\n']) = (l ++ ['\n']) ++ ls.flatMap (· ++ ['\n'])
          by simp, List.drop_left' (by simp)]
      rw [List.take_left, hdrop, ih, grepSpec_cons]
    · rename_i hq
      rw [strchr_line l _ hl h0] at hq
      cases hq

/-- A read of whole lines into an empty buffer writes the matching ones and keeps nothing. -/
theorem grepRead_lines (pattern out : List Char) (ls : List (List Char))
    (h : ∀ l ∈ ls, '\n' ∉ l ∧ '\x00' ∉ l) :
    grepRead pattern ([], out) (ls.flatMap (· ++ ['\n'])) = ([], out ++ grepSpec pattern ls) := by
  simp only [grepRead, List.nil_append, scanLines_lines pattern ls h, List.length_nil]
  split <;> rfl

/-- When every read returns whole lines with no `NUL` in them, `grep` writes the lines that
`match` accepts, in order, each with its newline. -/
theorem grep_whole_lines (pattern : List Char) (chunks : List (List (List Char)))
    (h : ∀ ls ∈ chunks, ∀ l ∈ ls, '\n' ∉ l ∧ '\x00' ∉ l) :
    grepRun pattern (chunks.map fun ls => ls.flatMap (· ++ ['\n'])) =
      grepSpec pattern chunks.flatten := by
  -- the buffer is empty before every read
  have hrun : ∀ (cs : List (List (List Char))) (out : List Char),
      (∀ ls ∈ cs, ∀ l ∈ ls, '\n' ∉ l ∧ '\x00' ∉ l) →
      (cs.map fun ls => ls.flatMap (· ++ ['\n'])).foldl (grepRead pattern) ([], out) =
        ([], out ++ grepSpec pattern cs.flatten) := by
    intro cs
    induction cs with
    | nil => simp [grepSpec]
    | cons ls cs ih =>
      intro out hcs
      rw [List.map_cons, List.foldl_cons, grepRead_lines pattern out ls (hcs ls List.mem_cons_self),
        ih _ (fun ls' hls' => hcs ls' (List.mem_cons_of_mem ls hls'))]
      simp [grepSpec, List.filter_append, List.flatMap_append]
  rw [grepRun, hrun chunks [] h, List.nil_append]

/-- The text `ab` and a newline, read as `a` and then `b` with the newline: the first read
leaves no complete line, so `grep` throws the `a` away and the pattern `a` finds no line, where
one read of the whole line writes it. -/
theorem grep_chunking_drops_line :
    grepSpec ['a'] [['a', 'b']] = ['a', 'b', '\n'] ∧
      grepRun ['a'] [['a', 'b', '\n']] = ['a', 'b', '\n'] ∧
      grepRun ['a'] [['a'], ['b', '\n']] = [] := by
  have hab : «match» ['a'] ['a', 'b'] = true := by decide
  have hb : «match» ['a'] ['b'] = false := by decide
  refine ⟨by decide, ?_, ?_⟩
  · simp [grepRun, grepRead, scanLines, strchr, hab]
  · simp [grepRun, grepRead, scanLines, strchr, hb]

end Xv6
