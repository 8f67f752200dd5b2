import SimplrOS.CatFile

/-!
# What `echo` prints

A line that begins with the word `echo` goes through the parser, the comparison of the
command, and `cmd_echo`.  What reaches `shell_putchar` are the remaining words among the
first 16 of the line, joined by single spaces, and a newline: the table of arguments has
16 places, and the words behind them are dropped.
-/

namespace Shell

open ByteStore Words

/-- The characters that the loop of `cmd_echo` sends to `shell_putchar` for the arguments
from `argv[1]` on. -/
def echoArgsSent : List (List UInt8) → List UInt8
  | [] => []
  | [arg] => arg
  | arg :: rest => arg ++ space :: echoArgsSent rest

/-- The characters that `cmd_echo` sends to `shell_putchar`. -/
def echoSent (argv : List (List UInt8)) : List UInt8 := echoArgsSent argv.tail ++ [newline]

/-- The strings that `argv` points to. -/
def Parse.arguments (s : Parse) : List (List UInt8) :=
  (List.range s.argc).map fun i => charsAt s.buffer (s.argv i) shellMaxInput

/-- Words joined by single spaces. -/
def joinWords (ws : List (List UInt8)) : List UInt8 := [space].intercalate ws

theorem echoArgs_eq (con : Console) (args : List (List UInt8)) :
    echoArgs con args = (echoArgsSent args).foldl shellPutchar con := by
  induction args generalizing con with
  | nil => rfl
  | cons arg rest ih =>
      cases rest with
      | nil => rfl
      | cons next rest =>
          have hloop : echoArgs con (arg :: next :: rest) =
              echoArgs (shellPutchar (shellPrint con arg) space) (next :: rest) := rfl
          have hsent : echoArgsSent (arg :: next :: rest) =
              arg ++ space :: echoArgsSent (next :: rest) := rfl
          rw [hloop, ih, hsent, List.foldl_append, List.foldl_cons, shellPrint]

/-- `cmd_echo` sends these characters and does nothing else. -/
theorem cmdEcho_eq (con : Console) (argv : List (List UInt8)) :
    cmdEcho con argv = (echoSent argv).foldl shellPutchar con := by
  rw [cmdEcho, echoArgs_eq, echoSent, List.foldl_append]
  rfl

/-- The separator rule of the loop. -/
theorem echoArgsSent_eq (args : List (List UInt8)) : echoArgsSent args = joinWords args := by
  induction args with
  | nil => rfl
  | cons arg rest ih =>
      cases rest with
      | nil => exact List.intercalate_singleton.symm
      | cons next rest =>
          have hsent : echoArgsSent (arg :: next :: rest) =
              arg ++ space :: echoArgsSent (next :: rest) := rfl
          rw [hsent, ih, joinWords, joinWords, List.intercalate_cons_cons, List.append_assoc,
            List.singleton_append]

/-- **The parser's arguments.**  For any bytes in the fresh table and enough fuel, the
strings that `shell_parse` leaves in `argv` are those the shell acts on. -/
theorem parseLoop_arguments {buffer : Bytes} {line : List UInt8} (h : HoldsString buffer 0 line)
    (hline : ∀ c ∈ line, c ≠ 0) (hlen : line.length ≤ 255) (argv : Nat → Nat) {fuel : Nat}
    (hfuel : 257 ≤ fuel) :
    ∃ s, parseLoop shellMaxArgs fuel ⟨buffer, 0, argv, 0, [], []⟩ = some s ∧
      s.arguments = shellParse line shellMaxArgs := by
  obtain ⟨s, found, left, hparse, hscan, hfound, hend⟩ := parseLoop_of_scanned
    (Parse.Scanned.of_line h hline argv) (by simp) (show line.length + 1 < fuel by omega)
  refine ⟨s, hparse, ?_⟩
  have htable : (words space line).take 16 = found := by
    rw [hscan.split]
    rcases hend with hnone | hfull
    · rw [hnone, List.append_nil]
      exact List.take_of_length_le hfound
    · exact List.take_left' hfull
  rw [shellParse_eq, htable, Parse.arguments, hscan.argc]
  apply List.ext_getElem
  · simp
  · intro i hi hi'
    obtain ⟨hcopy, _, _⟩ := hscan.argv i hi'
    have hword : found[i] ∈ words space line := by
      rw [hscan.split]
      exact List.mem_append_left _ (List.getElem_mem hi')
    obtain ⟨_, hsub⟩ := of_mem_words _ hword
    rw [List.getElem_map, List.getElem_range]
    exact hcopy.charsAt_eq (fun c hc => hline c (hsub.subset hc))
      (Nat.lt_succ_of_le (hsub.length_le.trans hlen))

/-- The command is recognised, and `cmd_echo` gets the arguments. -/
theorem runLine_echo {line : List UInt8}
    (hecho : (words space line).head? = some (ascii "echo")) (K : Kernel)
    (fs : Fsso.FssoFilesystem) (t : Nat) (con : Console) :
    runLine K fs t con line =
      ((echoSent (shellParse line shellMaxArgs)).foldl shellPutchar con, t) := by
  have hcommand : strEq (ascii "echo") (ascii "echo") = true := by decide
  rw [← cmdEcho_eq, runLine, shellParse_eq]
  cases hwords : words space line with
  | nil =>
      rw [hwords] at hecho
      cases hecho
  | cons command rest =>
      rw [hwords, List.head?_cons, Option.some.injEq] at hecho
      rw [hecho, List.take_succ_cons]
      exact if_pos hcommand

/-- **`echo`.**  The words behind the command, as far as the table of arguments goes, are
printed in order, with single spaces between them and a newline behind them. -/
theorem echo_prints {line : List UInt8} (hline : ∀ c ∈ line, c ≠ 0) (hlen : line.length ≤ 255)
    (hecho : (words space line).head? = some (ascii "echo")) {buffer : Bytes}
    (hbuffer : HoldsString buffer 0 line) (argv : Nat → Nat) {fuel : Nat} (hfuel : 257 ≤ fuel)
    (K : Kernel) (fs : Fsso.FssoFilesystem) (t : Nat) (con : Console) :
    ∃ s, parseLoop shellMaxArgs fuel ⟨buffer, 0, argv, 0, [], []⟩ = some s ∧
      runLine K fs t con line = ((echoSent s.arguments).foldl shellPutchar con, t) ∧
      echoSent s.arguments = joinWords ((words space line).take 16).tail ++ [newline] ∧
      ((words space line).length ≤ 16 →
        echoSent s.arguments = joinWords (words space line).tail ++ [newline]) := by
  obtain ⟨s, hparse, harguments⟩ := parseLoop_arguments hbuffer hline hlen argv hfuel
  have hsent : echoSent s.arguments =
      joinWords ((words space line).take 16).tail ++ [newline] := by
    rw [harguments, echoSent, echoArgsSent_eq, shellParse_eq]
  refine ⟨s, hparse, ?_, hsent, fun hfew => ?_⟩
  · rw [harguments]
    exact runLine_echo hecho K fs t con
  · rw [hsent, List.take_of_length_le hfew]

/-- Words with more than one space between them. -/
theorem echo_prints_spaced :
    ∃ s, parseLoop shellMaxArgs 257
        ⟨fun i => (ascii "echo  a b ").getD i 0, 0, fun _ => 0, 0, [], []⟩ = some s ∧
      echoSent s.arguments = ascii "a b" ++ [newline] := by
  have hbuffer : HoldsString (fun i => (ascii "echo  a b ").getD i 0) 0 (ascii "echo  a b ") := by
    constructor
    · intro i hi
      rw [Nat.zero_add]
      exact (List.getElem_eq_getD 0).symm
    · rfl
  obtain ⟨s, hparse, _, _, hall⟩ := @echo_prints (ascii "echo  a b ") (by decide +kernel)
    (by decide) (by decide) _ hbuffer (fun _ => 0) 257 (Nat.le_refl 257)
    (plainKernel Fsso.helloDisk) Fsso.formattedFs 0 ⟨0, 0, []⟩
  refine ⟨s, hparse, ?_⟩
  rw [hall (by decide)]
  decide

/-- The command and 16 further words. -/
def longEcho : List UInt8 := ascii "echo a a a a a a a a a a a a a a a b"

/-- The last word is not printed. -/
theorem longEcho_cut :
    longEcho.length ≤ 255 ∧ (words space longEcho).head? = some (ascii "echo") ∧
    (∀ K fs t con, runLine K fs t con longEcho =
      ((echoSent (shellParse longEcho shellMaxArgs)).foldl shellPutchar con, t)) ∧
    echoSent (shellParse longEcho shellMaxArgs) ≠
      joinWords (words space longEcho).tail ++ [newline] := by
  have hecho : (words space longEcho).head? = some (ascii "echo") := by decide
  refine ⟨by decide, hecho, fun K fs t con => runLine_echo hecho K fs t con, ?_⟩
  rw [shellParse_eq]
  decide

end Shell
