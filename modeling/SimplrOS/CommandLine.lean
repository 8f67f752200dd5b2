import SimplrOS.Shell
import SimplrOS.Words

/-!
# From keys to arguments

`shell_readline` and `shell_parse` on the arrays they work on: `input`, which the
first fills key by key and the second cuts into pieces by storing NULs, and
`argv`, which receives pointers into it, here offsets.  Both log the indices they
store to.

`editLine` is the line the keys spell and `words` its maximal runs without a
space.  At every round of the parser the words found so far lie behind the scan
position, each with its NUL, and the line from the position on is untouched.
-/

namespace Shell

open ByteStore Words

/-! ## The functions -/

/-- `input` and `len` of `shell_readline`, with the indices stored to. -/
structure Readline where
  buffer : Bytes
  len : Nat
  stores : List Nat

/-- A store to the buffer, with its index. -/
def Readline.store (r : Readline) (i : Nat) (c : UInt8) : Readline :=
  { r with buffer := put r.buffer i c, stores := r.stores ++ [i] }

/-- One round of `shell_readline`, for a key that does not end the line. -/
def readlineKey (max : Nat) (r : Readline) (c : UInt8) : Readline :=
  if c = 0 then r
  else if c = backspace then if r.len > 0 then { r with len := r.len - 1 } else r
  else if r.len < max - 1 then { r.store r.len c with len := r.len + 1 }
  else r

/-- `shell_readline` on the keys that `read_key` returns; `none` while it waits
for more. -/
def readline (max : Nat) (r : Readline) : List UInt8 → Option Readline
  | [] => none
  | c :: keys =>
      if c = newline then some (r.store r.len 0) else readline max (readlineKey max r c) keys

/-- `input`, `p`, `argv` and `argc` of `shell_parse`, with the indices stored to in
`input` and in `argv`. -/
structure Parse where
  buffer : Bytes
  p : Nat
  argv : Nat → Nat
  argc : Nat
  stores : List Nat
  slots : List Nat

/-- `while (*p == ' ') p++`; `none` when the fuel runs out. -/
def skipSpaces (buffer : Bytes) : Nat → Nat → Option Nat
  | 0, _ => none
  | fuel+1, p => if buffer p = space then skipSpaces buffer fuel (p + 1) else some p

/-- `while (*p && *p != ' ') p++`. -/
def skipToken (buffer : Bytes) : Nat → Nat → Option Nat
  | 0, _ => none
  | fuel+1, p =>
      if buffer p ≠ 0 ∧ buffer p ≠ space then skipToken buffer fuel (p + 1) else some p

/-- `argv[argc++] = p`. -/
def Parse.startToken (s : Parse) (p : Nat) : Parse :=
  { s with
    argv := fun i => if i = s.argc then p else s.argv i
    argc := s.argc + 1
    slots := s.slots ++ [s.argc] }

/-- `if (*p == ' ') { *p = '\0'; p++; }`. -/
def Parse.endToken (s : Parse) (p : Nat) : Parse :=
  if s.buffer p = space then
    { s with buffer := put s.buffer p 0, p := p + 1, stores := s.stores ++ [p] }
  else { s with p := p }

/-- The loop of `shell_parse`. -/
def parseLoop (maxArgs : Nat) : Nat → Parse → Option Parse
  | 0, _ => none
  | fuel+1, s =>
      if s.buffer s.p ≠ 0 ∧ s.argc < maxArgs then
        match skipSpaces s.buffer fuel s.p with
        | none => none
        | some p =>
            if s.buffer p = 0 then some { s with p := p }
            else
              match skipToken s.buffer fuel p with
              | none => none
              | some q => parseLoop maxArgs fuel ((s.startToken p).endToken q)
      else some s

/-! ## What they are for -/

/-- One key of the editor: 0 is ignored, a backspace deletes the last character if
there is one, any other key is appended while the line has room. -/
def editKey (text : List UInt8) (c : UInt8) : List UInt8 :=
  if c = 0 then text
  else if c = backspace then text.dropLast
  else if text.length < shellMaxInput - 1 then text ++ [c]
  else text

/-- The line that the keys spell. -/
def editLine (keys : List UInt8) : List UInt8 := keys.foldl editKey []

/-- The arrays after `shell_readline` and `shell_parse` for the given line: as many
arguments as there are words, at most 16, each a pointer to a copy of its word
inside `input`, and no store outside the arrays. -/
structure Parsed (text : List UInt8) (r : Readline) (s : Parse) : Prop where
  argc : s.argc = min shellMaxArgs (words space text).length
  argv : ∀ i, (hi : i < (words space text).length) → i < s.argc →
    HoldsString s.buffer (s.argv i) (words space text)[i] ∧
      s.argv i + (words space text)[i].length < shellMaxInput
  stores : ∀ i ∈ r.stores ++ s.stores, i < shellMaxInput
  slots : ∀ i ∈ s.slots, i < shellMaxArgs

/-! ## Reading a line -/

/-- `input` holds the first `len` characters of the line, and no store was past its
end. -/
structure Readline.Holds (r : Readline) (text : List UInt8) : Prop where
  len : r.len = text.length
  room : text.length ≤ 255
  chars : ∀ i, (hi : i < text.length) → r.buffer i = text[i]
  string : ∀ c ∈ text, c ≠ 0
  stores : ∀ i ∈ r.stores, i < 256

/-- An empty line is held by any buffer. -/
theorem Readline.Holds.of_empty (buffer : Bytes) : Readline.Holds ⟨buffer, 0, []⟩ [] where
  len := rfl
  room := by decide
  chars := fun i hi => absurd hi (by simp)
  string := fun c hc => absurd hc (by simp)
  stores := fun i hi => absurd hi (by simp)

/-- **Step lemma of the editor.** -/
theorem Readline.Holds.key {r : Readline} {text : List UInt8} (h : r.Holds text) (c : UInt8) :
    (readlineKey 256 r c).Holds (editKey text c) := by
  have hlen := h.len
  have hroom := h.room
  unfold readlineKey editKey
  by_cases hzero : c = 0
  · rw [if_pos hzero, if_pos hzero]
    exact h
  rw [if_neg hzero, if_neg hzero]
  by_cases hback : c = backspace
  · rw [if_pos hback, if_pos hback]
    by_cases hpos : r.len > 0
    · rw [if_pos hpos]
      have hshort : text.dropLast.length = text.length - 1 := List.length_dropLast
      refine ⟨?_, by omega, fun i hi => ?_, fun d hd => ?_, h.stores⟩
      · dsimp only
        omega
      · rw [List.getElem_dropLast]
        exact h.chars i (by omega)
      · exact h.string d (List.dropLast_subset text hd)
    · have hempty : text = [] := List.length_eq_zero_iff.mp (by omega)
      subst hempty
      rw [if_neg hpos]
      exact h
  have hmax : shellMaxInput - 1 = 255 := rfl
  rw [if_neg hback, if_neg hback, hmax]
  by_cases hmore : text.length < 255
  · rw [if_pos (by omega), if_pos hmore]
    refine ⟨?_, ?_, fun i hi => ?_, fun d hd => ?_, fun i hi => ?_⟩
    · simp only [List.length_append, List.length_singleton, hlen]
    · rw [List.length_append, List.length_singleton]
      omega
    · simp only [Readline.store]
      rw [List.length_append, List.length_singleton] at hi
      by_cases hlast : i = text.length
      · subst hlast
        rw [hlen, put_same, List.getElem_concat_length rfl]
      · rw [put_ne _ _ (by omega), List.getElem_append_left (by omega)]
        exact h.chars i (by omega)
    · rcases List.mem_append.mp hd with hd | hd
      · exact h.string d hd
      · rw [List.mem_singleton.mp hd]
        exact hzero
    · rcases List.mem_append.mp hi with hi | hi
      · exact h.stores i hi
      · rw [List.mem_singleton.mp hi]
        omega
  · rw [if_neg (by omega), if_neg hmore]
    exact h

/-- **Run lemma of the editor**, up to the key that ends the line. -/
theorem readline_of_keys {keys : List UInt8} (hkeys : newline ∉ keys) (rest : List UInt8)
    {r : Readline} {text : List UInt8} (h : r.Holds text) :
    ∃ r' : Readline, readline 256 r (keys ++ newline :: rest) = some (r'.store r'.len 0) ∧
      r'.Holds (keys.foldl editKey text) := by
  induction keys generalizing r text with
  | nil => exact ⟨r, by simp [readline], h⟩
  | cons c keys ih =>
      rw [List.mem_cons, not_or] at hkeys
      obtain ⟨r', hrun, hholds⟩ := ih hkeys.2 (h.key c)
      refine ⟨r', ?_, hholds⟩
      rw [List.cons_append, readline, if_neg (Ne.symm hkeys.1), hrun]

/-- The NUL behind the line makes it a string. -/
theorem Readline.Holds.string_of_end {r : Readline} {text : List UInt8} (h : r.Holds text) :
    HoldsString (r.store r.len 0).buffer 0 text where
  chars := by
    intro i hi
    have hlen := h.len
    have hkept : (r.store r.len 0).buffer (0 + i) = r.buffer i := by
      rw [Nat.zero_add]
      exact put_ne _ _ (by omega)
    rw [hkept]
    exact h.chars i hi
  nul := by
    rw [Nat.zero_add, ← h.len, Readline.store]
    exact put_same _ _ _

/-! ## Cutting it into words -/

/-- Skipping spaces ends at the first other character or at the NUL. -/
theorem skipSpaces_eq {buffer : Bytes} {rest : List UInt8} {fuel p : Nat}
    (h : HoldsString buffer p rest) (hfuel : rest.length < fuel) :
    ∃ q, skipSpaces buffer fuel p = some q ∧
      HoldsString buffer q (rest.dropWhile (· == space)) ∧
      q + (rest.dropWhile (· == space)).length = p + rest.length := by
  induction fuel generalizing p rest with
  | zero => omega
  | succ fuel ih =>
      rw [skipSpaces]
      cases rest with
      | nil =>
          have hnul : buffer p = 0 := h.nul
          rw [hnul, if_neg (by decide)]
          exact ⟨p, rfl, h, rfl⟩
      | cons c rest =>
          rw [h.head]
          by_cases hc : c = space
          · rw [List.length_cons] at hfuel
            obtain ⟨q, hq, hholds, hplace⟩ := ih h.tail (by omega)
            have hdrop : (c :: rest).dropWhile (· == space) = rest.dropWhile (· == space) :=
              List.dropWhile_cons_of_pos (by simpa using hc)
            rw [if_pos hc, hdrop, List.length_cons]
            exact ⟨q, hq, hholds, by omega⟩
          · have hdrop : (c :: rest).dropWhile (· == space) = c :: rest :=
              List.dropWhile_cons_of_neg (by simpa using hc)
            rw [if_neg hc, hdrop]
            exact ⟨p, rfl, h, rfl⟩

/-- Skipping a token ends at the first space or at the NUL. -/
theorem skipToken_eq {buffer : Bytes} {rest : List UInt8} {fuel p : Nat}
    (h : HoldsString buffer p rest) (hrest : ∀ c ∈ rest, c ≠ 0) (hfuel : rest.length < fuel) :
    skipToken buffer fuel p = some (p + (rest.takeWhile (· != space)).length) ∧
      HoldsString buffer (p + (rest.takeWhile (· != space)).length)
        (rest.dropWhile (· != space)) := by
  induction fuel generalizing p rest with
  | zero => omega
  | succ fuel ih =>
      rw [skipToken]
      cases rest with
      | nil =>
          have hnul : buffer p = 0 := h.nul
          rw [hnul, if_neg (by simp)]
          exact ⟨rfl, h⟩
      | cons c rest =>
          have hc := hrest c List.mem_cons_self
          rw [h.head]
          by_cases hspace : c = space
          · have htake : (c :: rest).takeWhile (· != space) = [] :=
              List.takeWhile_cons_of_neg (by simpa using hspace)
            have hdrop : (c :: rest).dropWhile (· != space) = c :: rest :=
              List.dropWhile_cons_of_neg (by simpa using hspace)
            rw [if_neg (fun hboth => hboth.2 hspace), htake, hdrop]
            exact ⟨rfl, h⟩
          · have htake : (c :: rest).takeWhile (· != space) =
                c :: rest.takeWhile (· != space) :=
              List.takeWhile_cons_of_pos (by simpa using hspace)
            have hdrop : (c :: rest).dropWhile (· != space) = rest.dropWhile (· != space) :=
              List.dropWhile_cons_of_pos (by simpa using hspace)
            have hplace : p + (c :: rest.takeWhile (· != space)).length =
                p + 1 + (rest.takeWhile (· != space)).length := by
              rw [List.length_cons]
              omega
            rw [List.length_cons] at hfuel
            obtain ⟨hq, hholds⟩ := ih h.tail
              (fun d hd => hrest d (List.mem_cons_of_mem _ hd)) (by omega)
            rw [if_pos ⟨hc, hspace⟩, htake, hdrop, hplace]
            exact ⟨hq, hholds⟩

/-- The parser's arrays between two rounds: the words `found` so far each have
their copy and its NUL, behind the scan position unless the line is used up, and
`rest` is what is still to be scanned. -/
structure Parse.Scanned (s : Parse) (text : List UInt8) (found : List (List UInt8))
    (rest : List UInt8) : Prop where
  split : words space text = found ++ words space rest
  suffix : HoldsString s.buffer s.p rest
  place : s.p + rest.length = text.length
  string : ∀ c ∈ rest, c ≠ 0
  argc : s.argc = found.length
  argv : ∀ i, (hi : i < found.length) → HoldsString s.buffer (s.argv i) found[i] ∧
    s.argv i + found[i].length ≤ text.length ∧
    (s.argv i + found[i].length < s.p ∨ rest = [])
  stores : ∀ i ∈ s.stores, i < text.length
  slots : ∀ i ∈ s.slots, i < 16

/-- The arguments before the new one stay. -/
theorem startToken_argv_old {s : Parse} {p i : Nat} (hi : i < s.argc) :
    (s.startToken p).argv i = s.argv i := if_neg (Nat.ne_of_lt hi)

/-- At the end of the line a token is not cut. -/
theorem endToken_nul {s : Parse} {p : Nat} (h : s.buffer p = 0) :
    s.endToken p = { s with p := p } := by
  rw [Parse.endToken, h, if_neg (by decide)]

/-- A token is cut at the space behind it. -/
theorem endToken_space {s : Parse} {p : Nat} (h : s.buffer p = space) :
    s.endToken p = { s with
      buffer := put s.buffer p 0
      p := p + 1
      stores := s.stores ++ [p] } := if_pos h

section Token

variable {s : Parse} {text w : List UInt8} {found : List (List UInt8)}

/-- The pointer to a token fits `argv`. -/
theorem Parse.Scanned.startToken_slots {rest : List UInt8} (h : s.Scanned text found rest)
    (hfull : s.argc < 16) (p : Nat) : ∀ i ∈ (s.startToken p).slots, i < 16 := by
  intro i hi
  rcases List.mem_append.mp hi with hold | hnew
  · exact h.slots i hold
  · rw [List.mem_singleton.mp hnew]
    exact hfull

/-- One more argument has been found. -/
theorem Parse.Scanned.startToken_argc {rest : List UInt8} (h : s.Scanned text found rest)
    (p : Nat) : (s.startToken p).argc = (found ++ [w]).length := by
  rw [List.length_append, List.length_singleton, ← h.argc]
  rfl

/-- The new argument begins at `p`. -/
theorem Parse.Scanned.startToken_argv {rest : List UInt8} (h : s.Scanned text found rest)
    (p : Nat) : (s.startToken p).argv found.length = p := if_pos h.argc.symm

/-- The last token ends at the NUL, and nothing is stored into the line. -/
theorem Parse.Scanned.lastToken (h : s.Scanned text found w) (hfull : s.argc < 16)
    (hw : w ≠ []) (hfree : space ∉ w) :
    ((s.startToken s.p).endToken (s.p + w.length)).Scanned text (found ++ [w]) [] := by
  have hplace := h.place
  have hargc := h.argc
  have hnul : (s.startToken s.p).buffer (s.p + w.length) = 0 := h.suffix.nul
  rw [endToken_nul hnul]
  constructor
  case split => rw [h.split, words_run hw hfree, words_nil, List.append_nil]
  case suffix => exact ⟨fun i hi => absurd hi (by simp), hnul⟩
  case place => exact hplace
  case string => exact fun c hc => absurd hc (by simp)
  case argc => exact h.startToken_argc s.p
  case argv =>
    intro i hi
    rw [List.length_append, List.length_singleton] at hi
    dsimp only
    by_cases hlast : i = found.length
    · subst hlast
      rw [h.startToken_argv, List.getElem_concat_length rfl]
      exact ⟨h.suffix, by omega, Or.inr rfl⟩
    · rw [List.getElem_append_left (by omega), startToken_argv_old (by omega)]
      obtain ⟨hholds, hin, _⟩ := h.argv i (by omega)
      exact ⟨hholds, hin, Or.inr rfl⟩
  case stores => exact h.stores
  case slots => exact h.startToken_slots hfull s.p

/-- The space behind any other token becomes its NUL. -/
theorem Parse.Scanned.cutToken {rest : List UInt8}
    (h : s.Scanned text found (w ++ space :: rest)) (hfull : s.argc < 16) (hw : w ≠ [])
    (hfree : space ∉ w) :
    ((s.startToken s.p).endToken (s.p + w.length)).Scanned text (found ++ [w]) rest := by
  have hplace := h.place
  rw [List.length_append, List.length_cons] at hplace
  have hpos : 0 < w.length := List.length_pos_iff.mpr hw
  have hargc := h.argc
  have hhead : (s.startToken s.p).buffer (s.p + w.length) = space := h.suffix.behind.head
  rw [endToken_space hhead]
  constructor
  case split =>
    rw [h.split, words_append hw hfree, List.append_assoc, List.singleton_append]
  case suffix =>
    refine h.suffix.behind.tail.congr fun i _ => put_ne _ _ ?_
    show s.p + w.length + 1 + i ≠ s.p + w.length
    omega
  case place =>
    dsimp only
    omega
  case string =>
    intro c hc
    exact h.string c (List.mem_append_right _ (List.mem_cons_of_mem _ hc))
  case argc => exact h.startToken_argc s.p
  case argv =>
    intro i hi
    rw [List.length_append, List.length_singleton] at hi
    dsimp only
    by_cases hlast : i = found.length
    · subst hlast
      rw [h.startToken_argv, List.getElem_concat_length rfl]
      refine ⟨⟨fun j hj => ?_, put_same _ _ _⟩, by omega, Or.inl (Nat.lt_succ_self _)⟩
      rw [put_ne _ _ (by omega)]
      exact h.suffix.front hj
    · rw [List.getElem_append_left (by omega), startToken_argv_old (by omega)]
      obtain ⟨hholds, hin, hbehind⟩ := h.argv i (by omega)
      -- The words found before lie in front of the token.
      have hlt : s.argv i + found[i].length < s.p := hbehind.resolve_right (by simp)
      refine ⟨hholds.congr fun j hj => put_ne _ _ (by omega), hin, Or.inl ?_⟩
      exact Nat.lt_of_lt_of_le hlt (show s.p ≤ s.p + w.length + 1 by omega)
  case stores =>
    intro i hi
    rcases List.mem_append.mp hi with hold | hnew
    · exact h.stores i hold
    · rw [List.mem_singleton.mp hnew]
      omega
  case slots => exact h.startToken_slots hfull s.p

/-- **Taking the token** in front of `tail`. -/
theorem Parse.Scanned.token {tail : List UInt8} (h : s.Scanned text found (w ++ tail))
    (hfull : s.argc < 16) (hw : w ≠ []) (hfree : space ∉ w)
    (htail : tail = [] ∨ ∃ rest, tail = space :: rest) :
    ((s.startToken s.p).endToken (s.p + w.length)).Scanned text (found ++ [w])
      (tail.drop 1) := by
  rcases htail with hnil | ⟨rest, hcons⟩
  · rw [hnil, List.append_nil] at h
    rw [hnil, List.drop_nil]
    exact h.lastToken hfull hw hfree
  · rw [hcons] at h
    rw [hcons, List.drop_succ_cons, List.drop_zero]
    exact h.cutToken hfull hw hfree

end Token

/-- Spaces are skipped. -/
theorem Parse.Scanned.skip {s : Parse} {text rest : List UInt8} {found : List (List UInt8)}
    {p : Nat} (h : s.Scanned text found rest)
    (hholds : HoldsString s.buffer p (rest.dropWhile (· == space)))
    (hplace : p + (rest.dropWhile (· == space)).length = s.p + rest.length) :
    Parse.Scanned { s with p := p } text found (rest.dropWhile (· == space)) where
  split := by rw [h.split, words_dropWhile]
  suffix := hholds
  place := hplace.trans h.place
  string := fun c hc => h.string c (List.dropWhile_subset _ hc)
  argc := h.argc
  argv := by
    intro i hi
    obtain ⟨hword, hin, hbehind⟩ := h.argv i hi
    have hshort : (rest.dropWhile (· == space)).length ≤ rest.length :=
      (List.dropWhile_sublist _).length_le
    refine ⟨hword, hin, ?_⟩
    rcases hbehind with hlt | rfl
    · left
      dsimp only
      omega
    · exact Or.inr rfl
  stores := h.stores
  slots := h.slots

/-- **Run lemma of the parser.**  The loop ends with all words found, or with
`argv` full. -/
theorem parseLoop_of_scanned {s : Parse} {text rest : List UInt8} {found : List (List UInt8)}
    {fuel : Nat} (h : s.Scanned text found rest) (hfound : found.length ≤ 16)
    (hfuel : rest.length + 1 < fuel) :
    ∃ s' found' rest', parseLoop 16 fuel s = some s' ∧ s'.Scanned text found' rest' ∧
      found'.length ≤ 16 ∧ (words space rest' = [] ∨ found'.length = 16) := by
  induction fuel generalizing s found rest with
  | zero => omega
  | succ fuel ih =>
      have hargc := h.argc
      rw [parseLoop]
      by_cases hmore : s.buffer s.p ≠ 0 ∧ s.argc < 16
      · obtain ⟨p, hskip, hholds, hplace⟩ :=
          skipSpaces_eq h.suffix (show rest.length < fuel by omega)
        have hscan := h.skip hholds hplace
        have hshort : (rest.dropWhile (· == space)).length ≤ rest.length :=
          (List.dropWhile_sublist _).length_le
        rw [if_pos hmore, hskip]
        dsimp only
        cases hnext : rest.dropWhile (· == space) with
        | nil =>
            rw [hnext] at hholds hscan
            have hnul : s.buffer p = 0 := hholds.nul
            rw [if_pos hnul]
            exact ⟨_, found, [], rfl, hscan, hfound, Or.inl words_nil⟩
        | cons c tail =>
            have hc : c ≠ space := ne_of_dropWhile hnext
            rw [hnext] at hholds hscan hshort
            have hne : s.buffer p ≠ 0 := by
              rw [hholds.head]
              exact hscan.string c List.mem_cons_self
            have hroom : (c :: tail).length < fuel := by omega
            obtain ⟨htoken, hbehind⟩ := skipToken_eq hholds hscan.string hroom
            rw [if_neg hne, htoken]
            dsimp only
            have hsplit := List.takeWhile_append_dropWhile (p := (· != space)) (l := c :: tail)
            have hw : (c :: tail).takeWhile (· != space) ≠ [] := by simp [hc]
            have hpos := List.length_pos_iff.mpr hw
            have hlen := congrArg List.length hsplit
            rw [List.length_append] at hlen
            have htail := dropWhile_run space (c :: tail)
            rw [← hsplit] at hscan
            have hround := hscan.token hmore.2 hw (not_mem_takeWhile _) htail
            have hdropped : (((c :: tail).dropWhile (· != space)).drop 1).length ≤
                ((c :: tail).dropWhile (· != space)).length := by simp
            refine ih hround ?_ (by omega)
            rw [List.length_append, List.length_singleton]
            omega
      · rw [if_neg hmore]
        refine ⟨s, found, rest, rfl, h, hfound, ?_⟩
        cases hrest : rest with
        | nil => exact Or.inl words_nil
        | cons c tail =>
            have hsuffix := h.suffix
            rw [hrest] at hsuffix
            have hne : s.buffer s.p ≠ 0 := by
              rw [hsuffix.head]
              exact h.string c (by simp [hrest])
            right
            have : ¬ s.argc < 16 := fun hlt => hmore ⟨hne, hlt⟩
            omega

/-- The parser at its start. -/
theorem Parse.Scanned.of_line {buffer : Bytes} {text : List UInt8}
    (h : HoldsString buffer 0 text) (hline : ∀ c ∈ text, c ≠ 0) (argv : Nat → Nat) :
    Parse.Scanned ⟨buffer, 0, argv, 0, [], []⟩ text [] text where
  split := rfl
  suffix := h
  place := Nat.zero_add _
  string := hline
  argc := rfl
  argv := fun i hi => absurd hi (by simp)
  stores := fun i hi => absurd hi (by simp)
  slots := fun i hi => absurd hi (by simp)

/-- **From keys to arguments.**  For any keys up to the newline, any bytes in the
fresh arrays and enough fuel, `shell_readline` returns and `shell_parse` leaves in
`argv` the first 16 words of the line. -/
theorem commandLine_parsed {keys : List UInt8} (hkeys : newline ∉ keys) (rest : List UInt8)
    (buffer : Bytes) (argv : Nat → Nat) {fuel : Nat} (hfuel : 257 ≤ fuel) :
    ∃ r s, readline shellMaxInput ⟨buffer, 0, []⟩ (keys ++ newline :: rest) = some r ∧
      parseLoop shellMaxArgs fuel ⟨r.buffer, 0, argv, 0, [], []⟩ = some s ∧
      Parsed (editLine keys) r s := by
  obtain ⟨r, hread, hholds⟩ := readline_of_keys hkeys rest (Readline.Holds.of_empty buffer)
  have hlen := hholds.len
  have hroom := hholds.room
  change r.Holds (editLine keys) at hholds
  change r.len = (editLine keys).length at hlen
  change (editLine keys).length ≤ 255 at hroom
  have hstart := Parse.Scanned.of_line hholds.string_of_end hholds.string argv
  obtain ⟨s, found, left, hparse, hscan, hfound, hend⟩ :=
    parseLoop_of_scanned hstart (by simp) (show (editLine keys).length + 1 < fuel by omega)
  have hsplit := hscan.split
  have hargc := hscan.argc
  have hcount := congrArg List.length hsplit
  rw [List.length_append] at hcount
  refine ⟨_, s, hread, hparse, ?_⟩
  constructor
  case argc =>
    have hmax : shellMaxArgs = 16 := rfl
    rcases hend with hnone | hfull
    · rw [hnone, List.length_nil] at hcount
      omega
    · omega
  case argv =>
    intro i hi hlt
    rw [hargc] at hlt
    have hword : (words space (editLine keys))[i] = found[i] := by
      simp only [hsplit, List.getElem_append_left hlt]
    obtain ⟨hcopy, hin, _⟩ := hscan.argv i hlt
    rw [hword]
    exact ⟨hcopy, by simp only [shellMaxInput]; omega⟩
  case stores =>
    intro i hi
    simp only [Readline.store, List.append_assoc, List.mem_append, List.mem_singleton] at hi
    rcases hi with hi | rfl | hi
    · exact hholds.stores i hi
    · simp only [shellMaxInput]
      omega
    · have := hscan.stores i hi
      simp only [shellMaxInput]
      omega
  case slots => exact hscan.slots

/-! ## The shell's line and words -/

/-- The shell state keeps the line that the keys spell. -/
theorem pressKey_input (K : Kernel) (fs : Fsso.FssoFilesystem) (s : State) (scancode : UInt8)
    (hline : (readKey s.shiftPressed scancode).1 ≠ newline) :
    (pressKey K fs s scancode).input = editKey s.input (readKey s.shiftPressed scancode).1 := by
  simp only [pressKey, editKey, if_neg hline]
  split
  · rfl
  · split
    · split
      · rfl
      · rename_i hempty
        have hnil : s.input = [] := List.length_eq_zero_iff.mp (by omega)
        rw [hnil]
        rfl
    · split <;> rfl

/-- The words the shell acts on are those of the line. -/
theorem shellParse_eq (input : List UInt8) (maxArgs : Nat) :
    shellParse input maxArgs = (words space input).take maxArgs := by
  induction maxArgs generalizing input with
  | zero => rfl
  | succ maxArgs ih =>
      rw [shellParse, ← words_dropWhile input]
      cases hnext : input.dropWhile (· == space) with
      | nil => rw [words_nil, List.take_nil]
      | cons c rest =>
          have hc : c ≠ space := ne_of_dropWhile hnext
          dsimp only
          rw [words_cons hc, List.take_succ_cons, ih]

/-- A typing error, `ls` and an argument, over a dirty buffer. -/
theorem commandLine_parsed_ls :
    ∃ r s, readline shellMaxInput ⟨fun _ => 0xCC, 0, []⟩ [108, 120, 8, 115, 32, 47, 10] = some r ∧
      parseLoop shellMaxArgs 257 ⟨r.buffer, 0, fun _ => 0, 0, [], []⟩ = some s ∧
      Parsed (editLine [108, 120, 8, 115, 32, 47]) r s :=
  @commandLine_parsed [108, 120, 8, 115, 32, 47] (by decide) [] (fun _ => 0xCC)
    (fun _ => 0) 257 (Nat.le_refl 257)

end Shell
