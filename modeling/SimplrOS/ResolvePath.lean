import SimplrOS.DirSearch
import SimplrOS.Words

/-!
# Resolving a path

`fsso_resolve_path` copies one component after the other into a buffer of 256
bytes and searches it in the current directory.  On a drive that delivers, the
result is that of walking over the nonempty components, each cut to 255
characters, whatever dots stand between them; and the buffer is never left, even
where a component is longer.
-/

namespace Fsso

open ByteStore Words

/-- The separator of `fsso_resolve_path`. -/
def dot : UInt8 := 46

/-- The inner loop of `fsso_resolve_path` from `p` on, with `component` filled so far:
the characters of the component, and where `p` is left. -/
def scanComponent (component : List UInt8) : List UInt8 → List UInt8 × List UInt8
  | [] => (component, [])
  | c :: p =>
      if c = dot ∨ c = 0 then (component, c :: p)
      else if component.length < fssoMaxFilename then scanComponent (component ++ [c]) p
      else scanComponent component p

/-- The indices of `component` that are written for one component, with `i` of them
written before; the last one is for its NUL. -/
def componentStores (i : Nat) : List UInt8 → List Nat
  | [] => [i]
  | c :: p =>
      if c = dot ∨ c = 0 then [i]
      else if i < fssoMaxFilename then i :: componentStores (i + 1) p
      else componentStores i p

/-- `p` behind the component and the dot that ends it. -/
def afterComponent (p : List UInt8) : List UInt8 :=
  let rest := (scanComponent [] p).2
  if rest.headD 0 = dot then rest.tail else rest

theorem length_scanComponent_le (component p : List UInt8) :
    (scanComponent component p).2.length ≤ p.length := by
  induction p generalizing component with
  | nil => exact Nat.le_refl 0
  | cons c p ih =>
      unfold scanComponent
      split
      · exact Nat.le_refl _
      · split
        · exact (ih (component ++ [c])).trans (Nat.le_succ _)
        · exact (ih component).trans (Nat.le_succ _)

/-- Every round of the outer loop gets further. -/
theorem length_afterComponent_lt {p : List UInt8} (hp : p.headD 0 ≠ 0) :
    (afterComponent p).length < p.length := by
  cases p with
  | nil => exact absurd rfl hp
  | cons c p =>
      rw [List.headD_cons] at hp
      by_cases hdot : c = dot
      · simp [afterComponent, scanComponent, hdot]
      · have hscan : scanComponent [] (c :: p) = scanComponent [c] p := by
          rw [scanComponent, if_neg (not_or.mpr ⟨hdot, hp⟩), if_pos (by decide), List.nil_append]
        have hle := length_scanComponent_le [c] p
        unfold afterComponent
        dsimp only
        rw [hscan, List.length_cons]
        split
        · rw [List.length_tail]
          omega
        · omega

/-- The outer loop of `fsso_resolve_path` from `p` on: the reply, and the indices of
`component` that are written.  `next_inode` is read only where the search has set it. -/
def resolveLoop (dv : Drive) (fs : FssoFilesystem) (out : UInt32) (p : List UInt8)
    (currentInode : UInt32) (t : Nat) : Reply UInt32 × List Nat :=
  if _hend : p.headD 0 = 0 then (⟨0, currentInode, t⟩, [])
  else
    let component := (scanComponent [] p).1
    let stores := componentStores 0 p
    if component.length = 0 then
      let r := resolveLoop dv fs out (afterComponent p) currentInode t
      (r.1, stores ++ r.2)
    else
      let found := fssoFindInDir dv t fs currentInode component 0
      if found.ret ≠ 0 then (⟨-1, out, found.clock⟩, stores)
      else
        let r := resolveLoop dv fs out (afterComponent p) found.out found.clock
        (r.1, stores ++ r.2)
termination_by p.length
decreasing_by
  · exact length_afterComponent_lt _hend
  · exact length_afterComponent_lt _hend

/-- `fsso_resolve_path`: the inode reached from the root, component by component. -/
def fssoResolvePath (dv : Drive) (t : Nat) (fs : FssoFilesystem) (path : List UInt8)
    (out : UInt32) : Reply UInt32 :=
  (resolveLoop dv fs out path 0 t).1

/-- The indices of `component` written by one call of `fsso_resolve_path`. -/
def fssoResolvePathStores (dv : Drive) (t : Nat) (fs : FssoFilesystem) (path : List UInt8)
    (out : UInt32) : List Nat :=
  (resolveLoop dv fs out path 0 t).2

/-! ## The walk -/

/-- The '.'-separated components of a path that are not empty. -/
def components (path : List UInt8) : List (List UInt8) := words dot path

/-- `fsso_find_in_dir` applied to the given components from directory `n` on, from
left to right; `none` if one of the searches fails. -/
def walk (dv : Drive) (t : Nat) (fs : FssoFilesystem) : UInt32 → List (List UInt8) → Option UInt32
  | n, [] => some n
  | n, component :: rest =>
      let found := fssoFindInDir dv t fs n component 0
      if found.ret = 0 then walk dv t fs found.out rest else none

/-- The reply for the outcome of a walk. -/
def Follows (r : Reply UInt32) (out : UInt32) : Option UInt32 → Prop
  | some m => r.ret = 0 ∧ r.out = m
  | none => r.ret = -1 ∧ r.out = out

theorem walk_append (dv : Drive) (t : Nat) (fs : FssoFilesystem) (n : UInt32)
    (first more : List (List UInt8)) :
    walk dv t fs n (first ++ more) =
      (walk dv t fs n first).bind fun m => walk dv t fs m more := by
  induction first generalizing n with
  | nil => rfl
  | cons component rest ih =>
      simp only [List.cons_append, walk]
      split
      · exact ih _
      · rfl

/-! ## One round of the loop -/

/-- The component is the run up to the next dot, cut to the buffer. -/
theorem scanComponent_eq {p : List UInt8} (hp : ∀ c ∈ p, c ≠ 0) (component : List UInt8) :
    scanComponent component p =
      (component ++ (p.takeWhile (· != dot)).take (255 - component.length),
        p.dropWhile (· != dot)) := by
  induction p generalizing component with
  | nil => simp [scanComponent]
  | cons c p ih =>
      have hc := hp c List.mem_cons_self
      have hrest := fun component => ih (fun d hd => hp d (List.mem_cons_of_mem c hd)) component
      by_cases hdot : c = dot
      · simp [scanComponent, hdot]
      · have hend : ¬ (c = dot ∨ c = 0) := not_or.mpr ⟨hdot, hc⟩
        rw [scanComponent, if_neg hend, List.takeWhile_cons_of_pos (by simpa using hdot),
          List.dropWhile_cons_of_pos (by simpa using hdot)]
        by_cases hroom : component.length < 255
        · have hleft : 255 - component.length = 255 - (component ++ [c]).length + 1 := by
            rw [List.length_append, List.length_singleton]
            omega
          rw [if_pos hroom, hrest, hleft, List.take_succ_cons, List.append_assoc,
            List.singleton_append]
        · have hfull : 255 - component.length = 0 := by omega
          rw [if_neg hroom, hrest, hfull, List.take_zero, List.take_zero]

/-- After a component comes what follows the next dot. -/
theorem afterComponent_eq {p : List UInt8} (hp : ∀ c ∈ p, c ≠ 0) :
    afterComponent p = (p.dropWhile (· != dot)).drop 1 := by
  have hscan := scanComponent_eq hp []
  unfold afterComponent
  dsimp only
  rw [hscan]
  rcases dropWhile_run dot p with hrest | ⟨rest, hrest⟩
  · have hend : ([] : List UInt8).headD 0 ≠ dot := by decide
    rw [hrest, if_neg hend, List.drop_nil]
  · rw [hrest, List.headD_cons, if_pos rfl, List.tail_cons, List.drop_succ_cons, List.drop_zero]

/-- Where reads succeed, a search does not depend on the reads before it. -/
theorem fssoFindInDir_clock {dv : Drive} (hsound : dv.Sound) (t t' : Nat) (fs : FssoFilesystem)
    (n : UInt32) {name : List UInt8} (hname : ∀ c ∈ name, c ≠ 0) (hlen : name.length ≤ 255)
    (out : UInt32) :
    (fssoFindInDir dv t fs n name out).ret = (fssoFindInDir dv t' fs n name out).ret ∧
      (fssoFindInDir dv t fs n name out).out = (fssoFindInDir dv t' fs n name out).out := by
  obtain ⟨s, hreply⟩ := fssoFindInDir_sound hname hlen hsound t fs n out
  obtain ⟨s', hreply'⟩ := fssoFindInDir_sound hname hlen hsound t' fs n out
  rw [hreply, hreply']
  split
  · exact ⟨rfl, rfl⟩
  · split
    · exact ⟨rfl, rfl⟩
    · cases lookup (dirEntries dv.disk n) name <;> exact ⟨rfl, rfl⟩

/-- **The loop is the walk.**  From any inode on, the loop walks over the nonempty
components, each cut to 255 characters. -/
theorem resolveLoop_follows {dv : Drive} (hsound : dv.Sound) (t t' : Nat) (fs : FssoFilesystem)
    {p : List UInt8} (hp : ∀ c ∈ p, c ≠ 0) (n out : UInt32) :
    Follows (resolveLoop dv fs out p n t).1 out
      (walk dv t' fs n ((components p).map (·.take 255))) := by
  induction hsize : p.length using Nat.strong_induction_on generalizing p n t with
  | h size ih =>
    cases p with
    | nil =>
        have hend : ([] : List UInt8).headD 0 = 0 := rfl
        rw [resolveLoop, dif_pos hend, components, words_nil]
        exact ⟨rfl, rfl⟩
    | cons c l =>
        have hc : (c :: l).headD 0 ≠ 0 := hp c List.mem_cons_self
        have hmore : (afterComponent (c :: l)).length < size :=
          hsize ▸ length_afterComponent_lt hc
        have hafter := afterComponent_eq hp
        have hnul : ∀ d ∈ afterComponent (c :: l), d ≠ 0 := by
          rw [hafter]
          exact fun d hd => hp d
            (List.dropWhile_sublist _ |>.subset (List.mem_of_mem_drop hd))
        have hscan := scanComponent_eq hp []
        rw [List.nil_append, List.length_nil, Nat.sub_zero] at hscan
        rw [resolveLoop, dif_neg hc]
        dsimp only
        rw [hscan]
        dsimp only
        by_cases hdot : c = dot
        · -- an empty component
          have hrest : afterComponent (c :: l) = l := by rw [hafter]; simp [hdot]
          rw [hrest] at hmore hnul ⊢
          rw [if_pos (by simp [hdot]), components, hdot, words_sep]
          exact ih l.length hmore t hnul n rfl
        · have hsome : ¬ (((c :: l).takeWhile (· != dot)).take 255).length = 0 := by
            simp [hdot]
          rw [if_neg hsome, components, words_cons hdot, ← hafter, List.map_cons, walk]
          have hcut : ∀ d ∈ ((c :: l).takeWhile (· != dot)).take 255, d ≠ 0 :=
            fun d hd => hp d (List.takeWhile_sublist _ |>.subset (List.mem_of_mem_take hd))
          obtain ⟨hret, hout⟩ := fssoFindInDir_clock hsound t t' fs n hcut
            (List.length_take_le 255 _) 0
          rw [← hret, ← hout]
          by_cases hfound :
              (fssoFindInDir dv t fs n (((c :: l).takeWhile (· != dot)).take 255) 0).ret = 0
          · rw [if_neg (not_not_intro hfound), if_pos hfound]
            exact ih _ hmore _ hnul _ rfl
          · rw [if_pos hfound, if_neg hfound]
            exact ⟨rfl, rfl⟩

/-! ## The buffer -/

/-- The component buffer is stored to at 255 and below only. -/
theorem le_of_mem_componentStores {i : Nat} (hi : i ≤ 255) {p : List UInt8} :
    ∀ k ∈ componentStores i p, k ≤ 255 := by
  induction p generalizing i with
  | nil =>
      intro k hk
      rw [componentStores, List.mem_singleton] at hk
      omega
  | cons c p ih =>
      intro k hk
      unfold componentStores at hk
      split at hk
      · rw [List.mem_singleton] at hk
        omega
      · split at hk
        · rename_i hroom
          rcases List.mem_cons.mp hk with hhere | hlater
          · omega
          · exact ih (Nat.succ_le_of_lt hroom) k hlater
        · exact ih hi k hk

/-- Whatever the drive delivers and however long the components are, the buffer is not
left. -/
theorem le_of_mem_resolveLoop {dv : Drive} {fs : FssoFilesystem} {out : UInt32} {p : List UInt8}
    {n : UInt32} {t : Nat} : ∀ k ∈ (resolveLoop dv fs out p n t).2, k ≤ 255 := by
  have hround : ∀ p, ∀ k ∈ componentStores 0 p, k ≤ 255 :=
    fun p => le_of_mem_componentStores (Nat.zero_le 255)
  fun_induction resolveLoop dv fs out p n t with
  | case1 => exact fun k hk => absurd hk List.not_mem_nil
  | case2 p n t hend component stores hempty r ih =>
      intro k hk
      rcases List.mem_append.mp hk with hhere | hlater
      · exact hround p k hhere
      · exact ih k hlater
  | case3 p n t hend component stores hsome found hmissing => exact hround p
  | case4 p n t hend component stores hsome found hfound r ih =>
      intro k hk
      rcases List.mem_append.mp hk with hhere | hlater
      · exact hround p k hhere
      · exact ih k hlater

/-! ## The whole path -/

/-- The two replies agree up to the reads behind them. -/
def SameReply (r r' : Reply UInt32) : Prop := r.ret = r'.ret ∧ r.out = r'.out

theorem Follows.same {r r' : Reply UInt32} {out : UInt32} {outcome : Option UInt32}
    (h : Follows r out outcome) (h' : Follows r' out outcome) : SameReply r r' := by
  cases outcome with
  | none => exact ⟨h.1.trans h'.1.symm, h.2.trans h'.2.symm⟩
  | some m => exact ⟨h.1.trans h'.1.symm, h.2.trans h'.2.symm⟩

/-- The resolution of `path` is the walk over its components: empty components do not
count, and a joined path is resolved from where its front part leads. -/
structure Walks (dv : Drive) (fs : FssoFilesystem) (path : List UInt8) : Prop where
  walk : ∀ t t' out, Follows (fssoResolvePath dv t fs path out) out
    (walk dv t' fs 0 (components path))
  leading : ∀ k t t' out,
    SameReply (fssoResolvePath dv t fs (List.replicate k dot ++ path) out)
      (fssoResolvePath dv t' fs path out)
  trailing : ∀ k t t' out,
    SameReply (fssoResolvePath dv t fs (path ++ List.replicate k dot) out)
      (fssoResolvePath dv t' fs path out)
  repeated : ∀ p q, path = p ++ dot :: q → ∀ k t t' out,
    SameReply (fssoResolvePath dv t fs (p ++ dot :: (List.replicate k dot ++ q)) out)
      (fssoResolvePath dv t' fs path out)
  joined : ∀ p q, path = p ++ dot :: q → ∀ t t' t'' out,
    let front := fssoResolvePath dv t' fs p out
    Follows (fssoResolvePath dv t fs path out) out
      (if front.ret = 0 then Fsso.walk dv t'' fs front.out (components q) else none)

/-- A path whose components fit the buffer. -/
structure Fitting (path : List UInt8) : Prop where
  string : ∀ c ∈ path, c ≠ 0
  short : ∀ w ∈ components path, w.length ≤ 255

/-- Resolving a path is walking along its components. -/
theorem fssoResolvePath_follows {dv : Drive} (hsound : dv.Sound) (fs : FssoFilesystem)
    {path : List UInt8} (hpath : Fitting path) (t t' : Nat) (out : UInt32) :
    Follows (fssoResolvePath dv t fs path out) out (walk dv t' fs 0 (components path)) := by
  have hloop := resolveLoop_follows hsound t t' fs hpath.string 0 out
  have hcut : (components path).map (·.take 255) = components path :=
    List.map_congr_left (g := id) (fun w hw => List.take_of_length_le (hpath.short w hw))
      |>.trans (List.map_id _)
  rwa [hcut] at hloop

/-- Paths with the same nonempty components resolve alike. -/
theorem fssoResolvePath_same {dv : Drive} (hsound : dv.Sound) (fs : FssoFilesystem)
    {path path' : List UInt8} (hpath : Fitting path) (hpath' : Fitting path')
    (hsame : components path = components path') (t t' : Nat) (out : UInt32) :
    SameReply (fssoResolvePath dv t fs path out) (fssoResolvePath dv t' fs path' out) := by
  have hfollows := fssoResolvePath_follows hsound fs hpath t 0 out
  rw [hsame] at hfollows
  exact hfollows.same (fssoResolvePath_follows hsound fs hpath' t' 0 out)

/-- Joining two paths by a dot appends their components. -/
theorem components_join (p q : List UInt8) :
    components (p ++ dot :: q) = components p ++ components q := words_join p q

/-- Both sides of a dot fit if the whole path does. -/
theorem Fitting.sides {p q : List UInt8} (h : Fitting (p ++ dot :: q)) :
    Fitting p ∧ Fitting q := by
  have hshort := h.short
  rw [components_join] at hshort
  refine ⟨⟨fun c hc => h.string c ?_, fun w hw => hshort w (List.mem_append_left _ hw)⟩,
    fun c hc => h.string c ?_, fun w hw => hshort w (List.mem_append_right _ hw)⟩
  · exact List.mem_append_left _ hc
  · exact List.mem_append_right _ (List.mem_cons_of_mem dot hc)

/-- A path still fits with further dots in it. -/
theorem Fitting.of_same {path path' : List UInt8} (h : Fitting path)
    (hsame : components path' = components path) (hchars : ∀ c ∈ path', c = dot ∨ c ∈ path) :
    Fitting path' where
  short := hsame ▸ h.short
  string := by
    intro c hc
    rcases hchars c hc with hdot | hold
    · rw [hdot]
      decide
    · exact h.string c hold

/-- **Path resolution.**  Where reads succeed and the components fit, the resolution is
the walk over them; and no path is written past the end of the buffer. -/
theorem fssoResolvePath_walks (dv : Drive) (fs : FssoFilesystem) (path : List UInt8) :
    (dv.Sound → (∀ c ∈ path, c ≠ 0) → (∀ w ∈ path.splitOn dot, w.length ≤ 255) →
      Walks dv fs path) ∧
    ∀ t out, ∀ i ∈ fssoResolvePathStores dv t fs path out, i < 256 := by
  refine ⟨fun hsound hnul hshort => ?_,
    fun t out i hi => Nat.lt_succ_of_le (le_of_mem_resolveLoop i hi)⟩
  have hpath : Fitting path := ⟨hnul, fun w hw => hshort w (List.mem_of_mem_filter hw)⟩
  constructor
  case walk => exact fssoResolvePath_follows hsound fs hpath
  case leading =>
    intro k
    have hsame : components (List.replicate k dot ++ path) = components path :=
      words_leading k path
    have hlonger := hpath.of_same hsame fun c hc =>
      (List.mem_append.mp hc).imp_left List.eq_of_mem_replicate
    exact fssoResolvePath_same hsound fs hlonger hpath hsame
  case trailing =>
    intro k
    have hsame : components (path ++ List.replicate k dot) = components path :=
      words_trailing k path
    have hlonger := hpath.of_same hsame fun c hc =>
      (List.mem_append.mp hc).symm.imp_left List.eq_of_mem_replicate
    exact fssoResolvePath_same hsound fs hlonger hpath hsame
  case repeated =>
    intro p q hsplit k
    have hsame : components (p ++ dot :: (List.replicate k dot ++ q)) = components path := by
      have hmiddle : components (List.replicate k dot ++ q) = components q := words_leading k q
      rw [hsplit, components_join, components_join, hmiddle]
    have hlonger : Fitting (p ++ dot :: (List.replicate k dot ++ q)) := by
      refine hpath.of_same hsame fun c hc => ?_
      rw [hsplit]
      simp only [List.mem_append, List.mem_cons, List.mem_replicate] at hc ⊢
      tauto
    exact fssoResolvePath_same hsound fs hlonger hpath hsame
  case joined =>
    intro p q hsplit t t' t'' out
    have hwhole := fssoResolvePath_follows hsound fs hpath t t'' out
    rw [hsplit] at hpath hwhole ⊢
    have hfront := fssoResolvePath_follows hsound fs hpath.sides.1 t' t'' out
    rw [components_join, walk_append] at hwhole
    dsimp only
    cases hwalk : Fsso.walk dv t'' fs 0 (components p) with
    | none =>
        rw [hwalk] at hfront hwhole
        rw [if_neg (by rw [hfront.1]; decide)]
        exact hwhole
    | some m =>
        rw [hwalk] at hfront hwhole
        rw [if_pos hfront.1, hfront.2]
        exact hwhole

/-- The stored file under a path with dots around its two components: the search for the
second one fails. -/
theorem fssoResolvePath_walks_hello :
    Walks helloDrive formattedFs (dot :: helloCall.name) ∧
    ∀ t out, ∀ i ∈ fssoResolvePathStores helloDrive t formattedFs (dot :: helloCall.name) out,
      i < 256 := by
  obtain ⟨hwalks, hstores⟩ := fssoResolvePath_walks helloDrive formattedFs (dot :: helloCall.name)
  refine ⟨hwalks (fun _ => rfl) ?_ ?_, hstores⟩
  · simp [helloCall, dot]
  · decide

end Fsso
