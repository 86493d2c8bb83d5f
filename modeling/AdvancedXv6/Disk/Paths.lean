import AdvancedXv6.Disk.Names
import AdvancedXv6.Disk.Reserve

/-! `namei` and `nameiparent` follow the components of a path, one `dirlookup` after the other. -/

namespace Xv6.Disk
open Function Effect Bytes Fs
variable {H K L : List Nat} {o : Nat} {s s₀ t u : Fs} {i j cwd dp n k : Nat} {name : Name} {path : Name}
  {names : List Name} {E : Panic → Fs → Prop}

/-! ### Components -/

/-- The runs of a path between its slashes, each cut to `DIRSIZ` bytes. -/
def components (path : Name) : List Name :=
  ((path.splitOn Files.slash).filter fun run => decide (run ≠ [])).map fun run => run.take dirSiz

theorem components_slash (path : Name) : components (Files.slash :: path) = components path := by
  have hsplit : (Files.slash :: path).splitOn Files.slash = [] :: path.splitOn Files.slash := by
    have happend := List.splitOn_append_cons_self (a := Files.slash) [] path
    rwa [List.splitOn_nil] at happend
  rw [components, hsplit]
  rfl

theorem components_dropWhile (path : Name) :
    components (path.dropWhile fun c => decide (c = Files.slash)) = components path := by
  induction path with
  | nil => rfl
  | cons c path ih =>
    by_cases hc : c = Files.slash
    · rw [List.dropWhile_cons_of_pos (p := fun c => decide (c = Files.slash)) (decide_eq_true hc), ih, hc, components_slash]
    · rw [List.dropWhile_cons_of_neg (p := fun c => decide (c = Files.slash)) fun htrue => hc (of_decide_eq_true htrue)]

/-- A run and what comes after it. -/
theorem components_run {run rest : Name} (hrun : Files.slash ∉ run) (hne : run ≠ []) :
    components (run ++ Files.slash :: rest) = run.take dirSiz :: components rest := by
  have hsplit : (run ++ Files.slash :: rest).splitOn Files.slash = run :: rest.splitOn Files.slash := by
    rw [List.splitOn_append_cons_self, List.splitOn_eq_singleton hrun]
    rfl
  rw [components, hsplit, List.filter_cons_of_pos (p := fun run => decide (run ≠ [])) (decide_eq_true hne)]
  rfl

theorem components_last {run : Name} (hrun : Files.slash ∉ run) (hne : run ≠ []) :
    components run = [run.take dirSiz] := by
  rw [components, List.splitOn_eq_singleton hrun, List.filter_cons_of_pos (p := fun run => decide (run ≠ [])) (decide_eq_true hne)]
  rfl

/-- `skipelem`, called until there is no name left, gives the components. -/
theorem elements_eq_components (n : Nat) (path : Name) (hn : path.length ≤ n) :
    Files.elements n path = components path := by
  induction n generalizing path with
  | zero =>
    obtain rfl := List.length_eq_zero_iff.mp (Nat.le_zero.mp hn)
    rfl
  | succ n ih =>
    rw [Files.elements, Files.skipelem, ← components_dropWhile]
    have hlen : (path.dropWhile fun c => decide (c = Files.slash)).length ≤ path.length :=
      (List.dropWhile_sublist _).length_le
    cases hpath : path.dropWhile fun c => decide (c = Files.slash) with
    | nil => rfl
    | cons c p =>
      have hc : c ≠ Files.slash := by
        have hhead := List.head?_dropWhile_not (fun c => decide (c = Files.slash)) path
        rw [hpath] at hhead
        simpa using hhead
      rw [hpath, List.length_cons] at hlen
      dsimp only
      obtain ⟨run, hrun⟩ : ∃ run, run = (c :: p).takeWhile fun c => decide (c ≠ Files.slash) := ⟨_, rfl⟩
      obtain ⟨rest, hrest⟩ : ∃ rest, rest = (c :: p).dropWhile fun c => decide (c ≠ Files.slash) := ⟨_, rfl⟩
      have happend : run ++ rest = c :: p := by
        rw [hrun, hrest]
        exact List.takeWhile_append_dropWhile
      have hnot : Files.slash ∉ run := fun hmem => by
        rw [hrun] at hmem
        have hall := List.all_eq_true.mp List.all_takeWhile _ hmem
        exact of_decide_eq_true hall rfl
      have hne : run ≠ [] := by
        rw [hrun, List.takeWhile_cons_of_pos (p := fun c => decide (c ≠ Files.slash)) (decide_eq_true hc)]
        exact List.cons_ne_nil _ _
      rw [← hrun, ← hrest, ← happend]
      cases hr : rest with
      | nil =>
        rw [List.append_nil, components_last hnot hne]
        cases n with
        | zero => rfl
        | succ n => rfl
      | cons d rest' =>
        have hd : d = Files.slash := by
          have hhead := List.head?_dropWhile_not (fun c => decide (c ≠ Files.slash)) (c :: p)
          rw [← hrest, hr] at hhead
          simpa using hhead
        subst hd
        have hshort : rest'.length ≤ n := by
          have hsum := congrArg List.length happend
          have hpos := List.length_pos_of_ne_nil hne
          rw [hr, List.length_append, List.length_cons, List.length_cons] at hsum
          omega
        rw [components_run hnot hne, List.dropWhile_cons_of_pos (p := fun c => decide (c = Files.slash)) (decide_eq_true rfl),
          ih _ ((List.dropWhile_sublist _).length_le.trans hshort), components_dropWhile]
        rfl

/-! ### Following names -/

namespace Fs

/-- The inode that the names lead to; it fails if a step starts at a non-directory or finds no entry. -/
def follow (s : Fs) : Nat → List Name → Option Nat
  | i, [] => some i
  | i, name :: rest =>
    if (s.node i).type = tDir then (s.entryOf i (key name)).bind fun k => s.follow (s.inum i k) rest else none

/-- The directory that all names but the last lead to, and the last name. -/
def parent (s : Fs) (i : Nat) (names : List Name) : Option (Nat × Name) :=
  names.getLast?.bind fun name =>
    (s.follow i names.dropLast).bind fun j => if (s.node j).type = tDir then some (j, name) else none

/-- The names lead to inodes, and directories have no partial entries. -/
structure Tree (s : Fs) : Prop where
  named : ∀ j, s.Named j → (s.node j).type ≠ 0
  whole : ∀ i, s.Alloc i → (s.node i).type = tDir → (s.node i).size % direntSize = 0

theorem parent_cons (s : Fs) (i : Nat) (name : Name) (rest : List Name) : s.parent i (name :: rest) =
    if (s.node i).type = tDir then
      if rest = [] then some (i, name) else (s.entryOf i (key name)).bind fun k => s.parent (s.inum i k) rest
    else none := by
  cases rest with
  | nil =>
    rw [parent, if_pos rfl]
    rfl
  | cons name' rest =>
    rw [if_neg (List.cons_ne_nil _ _), parent, List.getLast?_cons_cons, List.dropLast_cons_of_ne_nil (List.cons_ne_nil _ _),
      follow]
    by_cases hdir : (s.node i).type = tDir
    · rw [if_pos hdir, if_pos hdir]
      cases s.entryOf i (key name) with
      | none =>
        cases (name' :: rest).getLast? with
        | none => rfl
        | some last => rfl
      | some k => rfl
    · rw [if_neg hdir, if_neg hdir]
      cases (name' :: rest).getLast? with
      | none => rfl
      | some last => rfl

theorem entryOf_named (hi : s.Alloc i) (hdir : (s.node i).type = tDir)
    {x : List UInt8} (hx : s.entryOf i x = some k) : s.Named (s.inum i k) := by
  have htrue : s.bears i x k = true := List.find?_some hx
  have hk := List.mem_range.mp (List.mem_of_find?_eq_some hx)
  refine .inr ⟨i, k, hi, hdir, ?_, rfl, (of_decide_eq_true htrue).1⟩
  change k < _ / 16 at hk
  change 16 * k + 16 ≤ _
  omega

end Fs

/-- An inode in use can be locked. -/
theorem ilock_live (h : s.Busy o L H) (hi : i ∈ H) (hlive : (s.node i).type ≠ 0) :
    wp (ilock i) s (fun _ t => t.Busy o (i :: L) H ∧ Borrows [] s t) fun _ _ => False := by
  have hno : wp (ilock i) s (fun _ _ => True) fun _ _ => False := by
    unfold ilock
    rw [wp_bind, wp_get, wp_ite]
    refine ⟨fun hv => ?_, fun _ => (wp_pure _).mpr trivial⟩
    rw [wp_bind, wp_modify, wp_ite]
    refine ⟨fun htype => absurd htype ?_, fun _ => (wp_pure _).mpr trivial⟩
    rwa [← h.node_eq_dinode]
  refine wp_mono (wp_and hno (wp_and (busy_ilock h hi) ilock_borrows)) (fun _ _ ht => ht.2) fun _ _ he => he.1

/-! ### `namex` -/

section Namex
variable (hs₀ : s₀.Valid) (htree : s₀.Tree)
include hs₀ htree

/-- The answer of the loop. -/
def answer (s : Fs) (np : Bool) (i : Nat) (names : List Name) : Option (Nat × Name) :=
  if np then s.parent i names else (s.follow i names).map fun j => (j, [])

omit hs₀ htree in
theorem answer_cons (s : Fs) (np : Bool) (i : Nat) (name : Name) (rest : List Name) : answer s np i (name :: rest) =
    if (s.node i).type = tDir then
      if np = true ∧ rest = [] then some (i, name) else (s.entryOf i (key name)).bind fun k => answer s np (s.inum i k) rest
    else none := by
  have hnp : ¬(false = true ∧ rest = []) := fun hand => Bool.false_ne_true hand.1
  by_cases hdir : (s.node i).type = tDir
  · rw [if_pos hdir]
    cases np with
    | true =>
      rw [answer, if_pos rfl, parent_cons, if_pos hdir]
      exact if_congr (and_iff_right rfl).symm rfl rfl
    | false =>
      rw [answer, if_neg Bool.false_ne_true, follow, if_pos hdir, if_neg hnp, Option.map_bind]
      rfl
  · rw [if_neg hdir]
    cases np with
    | true => rw [answer, if_pos rfl, parent_cons, if_neg hdir]
    | false =>
      rw [answer, if_neg Bool.false_ne_true, follow, if_neg hdir]
      rfl

theorem namexLoop_answer (np : Bool) (names : List Name) (h : s.Busy o [] (i :: H)) (hb : Borrows [i] s₀ s)
    (hkept : s₀.Kept i) (hlive : (s₀.node i).type ≠ 0) : wp (namexLoop np i names) s
      (fun r t => r = answer s₀ np i names ∧ Walked o H Prod.fst r t ∧ Borrows (refs Prod.fst [] r) s₀ t)
      fun _ _ => False := by
  induction names generalizing i s with
  | nil =>
    rw [namexLoop, wp_ite]
    refine ⟨fun hnp => ?_, fun hnp => (wp_pure _).mpr ⟨?_, h, hb⟩⟩
    · refine wp_seq (walk_iput hs₀ h (List.Perm.refl _) hb hkept) fun _ t ht => (wp_pure _).mpr ⟨?_, ht⟩
      rw [answer, if_pos hnp]
      rfl
    · rw [answer, if_neg hnp]
      rfl
  | cons name rest ih =>
    have hnode := hb.node hs₀.toSound h.toSound
    have hdrop : ∀ {u : Fs}, u.Busy o [i] (i :: H) → Borrows [i] s₀ u → answer s₀ np i (name :: rest) = none →
        wp (do iput i; return none) u (fun r t => r = answer s₀ np i (name :: rest) ∧
          Walked o H (Prod.fst (α := Nat) (β := Name)) r t ∧ Borrows (refs Prod.fst [] r) s₀ t) fun _ _ => False :=
      fun hu hbu hnone => wp_seq (walk_iput hs₀ hu (List.Perm.refl _) hbu hkept) fun _ v hv =>
        (wp_pure _).mpr ⟨hnone.symm, hv⟩
    rw [namexLoop]
    refine wp_seq (ilock_live h List.mem_cons_self (by rwa [hnode])) fun _ t ht => ?_
    have hbt : Borrows [i] s₀ t := hb.trans ht.2
    have hnodet := hbt.node hs₀.toSound ht.1.toSound
    have hvt := ht.1.valid List.mem_cons_self
    have halloc : s₀.Alloc i := ⟨(ht.1.synced i hvt).1, hlive⟩
    rw [wp_bind, wp_get, wp_ite, ← node_eq hvt, hnodet]
    refine ⟨fun hfile => ?_, fun hdir => ?_⟩
    · refine hdrop ht.1 hbt ?_
      rw [answer_cons, if_neg hfile]
    rw [not_not] at hdir
    have hstep := answer_cons s₀ np i name rest
    rw [if_pos hdir] at hstep
    rw [wp_ite]
    refine ⟨fun hlast => (wp_pure _).mpr ⟨?_, ⟨ht.1.toGood, by simp, ht.1.outstanding⟩, hbt⟩, fun hmore => ?_⟩
    · rw [hstep, if_pos hlast]
    rw [if_neg hmore] at hstep
    have hsame := hbt.leaves hs₀.toSound ht.1.toSound halloc
    have hentry : t.entryOf i (key name) = s₀.entryOf i (key name) := by
      have hbears : t.bears i (key name) = s₀.bears i (key name) := funext fun k => by
        rw [bears, hsame.inum, hsame.title]
        rfl
      rw [entryOf, hsame.entries, hbears]
      rfl
    have hwhole : (t.node i).size % direntSize = 0 := by
      rw [hsame.size]
      exact htree.whole i halloc hdir
    refine wp_seq (dirlookup_entryOf ht.1 List.mem_cons_self (hsame.type.trans hdir) hwhole) fun r u hu => ?_
    obtain ⟨hr, hfound, hbu, -⟩ := hu
    rw [hentry] at hr
    cases hx : s₀.entryOf i (key name) with
    | none =>
      rw [hx, Option.map_none] at hr
      rw [hx] at hstep
      subst hr
      exact hdrop hfound.1 (hbt.trans hbu) hstep
    | some k =>
      rw [hx, Option.map_some, hsame.inum] at hr
      rw [hx] at hstep
      subst hr
      have hnamed := entryOf_named halloc hdir hx
      have hbu' : Borrows [s₀.inum i k, i] s₀ u := hbt.trans hbu
      have hswap : Borrows [i, s₀.inum i k] s₀ u := ⟨hbu'.blk, hbu'.logged, fun j => by
        rw [hbu'.ref, (List.Perm.swap i (s₀.inum i k) []).count_eq]⟩
      dsimp only
      refine wp_seq (walk_iput hs₀ hfound.1 (List.Perm.swap ..) hswap hkept) fun _ v hv => ?_
      refine wp_mono (ih hv.1 hv.2 (hs₀.linked _ hnamed) (htree.named _ hnamed)) (fun r w hw => ⟨?_, hw.2⟩)
        fun _ _ he => he
      rw [hw.1, hstep]
      rfl

/-- Where the walk begins. -/
def origin (cwd : Nat) (path : Name) : Nat := if path.head? = some Files.slash then rootIno else cwd

theorem namex_answer (h : s₀.Busy o [] H) (hcwd : cwd ∈ H) (hlive : (s₀.node cwd).type ≠ 0) (path : Name) (np : Bool) :
    wp (namex cwd path np) s₀ (fun r t => r = answer s₀ np (origin cwd path) (components path) ∧
      Walked o H Prod.fst r t ∧ Borrows (refs Prod.fst [] r) s₀ t) fun _ _ => False := by
  rw [← elements_eq_components path.length path (Nat.le_refl _)]
  unfold namex origin
  by_cases hslash : path.head? = some Files.slash
  · rw [if_pos hslash, if_pos hslash]
    have hroot : s₀.Named rootIno := .inl rfl
    have hget : wp (iget rootIno) s₀ (fun _ t => t.Busy o [] (rootIno :: H) ∧ Borrows [rootIno] s₀ t)
        fun _ _ => False := by
      exact wp_mono (wp_and (busy_iget h (by decide)) (iget_borrows (E := fun _ _ => False))) (fun _ _ ht => ht)
        fun _ _ he => he.2
    exact wp_seq hget fun _ t ht => namexLoop_answer hs₀ htree np _ ht.1 ht.2 (hs₀.linked rootIno hroot)
      (htree.named rootIno hroot)
  · rw [if_neg hslash, if_neg hslash]
    have hdup : wp (idup cwd) s₀ (fun _ t => t.Busy o [] (cwd :: H) ∧ Borrows [cwd] s₀ t) fun _ _ => False := by
      exact wp_mono (wp_and (busy_idup h hcwd) (idup_borrows (E := fun _ _ => False))) (fun _ _ ht => ht)
        fun _ _ he => he.2
    have hpos : 1 ≤ s₀.ref cwd := Nat.le_trans (List.count_pos_iff.mpr hcwd) (h.owned cwd)
    exact wp_seq hdup fun _ t ht => namexLoop_answer hs₀ htree np _ ht.1 ht.2 (.inr (.inr hpos)) hlive

/-- `namei` gives the inode that the components lead to, and `nameiparent` the directory that all but the last lead
to and that component; besides the reference to the result no other is kept. -/
theorem namei_follows (h : s₀.Busy o [] H) (hcwd : cwd ∈ H) (hlive : (s₀.node cwd).type ≠ 0) (path : Name) :
    (∃ r t, namei cwd path s₀ = .ok r t ∧ r = s₀.follow (origin cwd path) (components path) ∧
      Borrows (refs id [] r) s₀ t) ∧
    ∃ r t, nameiparent cwd path s₀ = .ok r t ∧ r = s₀.parent (origin cwd path) (components path) ∧
      Borrows (refs Prod.fst [] r) s₀ t := by
  have hnamei : wp (namei cwd path) s₀ (fun r t => r = s₀.follow (origin cwd path) (components path) ∧
      Borrows (refs id [] r) s₀ t) fun _ _ => False := by
    unfold namei
    refine wp_seq (namex_answer hs₀ htree h hcwd hlive path false) fun r t ht => (wp_pure _).mpr ?_
    obtain ⟨rfl, -, hb⟩ := ht
    rw [answer, if_neg Bool.false_ne_true] at hb ⊢
    rw [Option.map_map]
    cases hx : s₀.follow (origin cwd path) (components path) with
    | none =>
      rw [hx] at hb
      exact ⟨rfl, hb⟩
    | some j =>
      rw [hx] at hb
      exact ⟨rfl, hb⟩
  obtain ⟨r', t', hrun', hr', -, hb'⟩ := exists_ok_of_wp (namex_answer hs₀ htree h hcwd hlive path true)
  exact ⟨exists_ok_of_wp hnamei, r', t', hrun', hr', hb'⟩

end Namex

/-! ### An image with one file -/

/-- A process has `i` as its current directory, and is the only one in a transaction. -/
def Fs.entered (s : Fs) (i : Nat) : Fs := { s with ref := update s.ref i (s.ref i + 1), outstanding := 1 }

theorem Fs.entered_borrows (s : Fs) (i : Nat) : Borrows [i] s (s.entered i) := ⟨rfl, rfl, count_update fun _ => rfl⟩

theorem Fs.entered_node (s : Fs) (i j : Nat) : (s.entered i).node j = s.node j := rfl

theorem Fs.Valid.entered (h : s.Valid) (hi : i < ninodes) : (s.entered i).Busy 0 [] [i] ∧ (s.entered i).Valid := by
  have href := (s.entered_borrows i).ref
  have hsound : (s.entered i).Sound := by
    refine h.same_node rfl (s.entered_node i) h.synced h.live fun j hj => ?_
    by_cases hji : j = i
    · exact hji ▸ hi
    · rw [href, List.count_singleton, if_neg (by simpa using Ne.symm hji), Nat.add_zero] at hj
      exact h.refs j hj
  exact ⟨⟨⟨hsound, fun j => href j ▸ Nat.le_add_left ..⟩, by simp, rfl⟩, h.borrows (s.entered_borrows i) hsound⟩

/-- The root of the image is the current directory. -/
def inRoot : Fs := (entryTo 2).entered 1

theorem inRoot_valid : inRoot.Busy 0 [] [1] ∧ inRoot.Valid := entryTo_valid.entered (by decide)

theorem inRoot_tree : inRoot.Tree := by
  have hone : (inRoot.node 1).type ≠ 0 ∧ (inRoot.node 1).size % direntSize = 0 := by decide
  have htwo : inRoot.inum 1 0 = 2 ∧ (inRoot.node 2).type ≠ 0 := by decide
  have hroot : ∀ i, inRoot.Alloc i → (inRoot.node i).type = tDir → i = 1 ∧ (inRoot.node i).size = 16 := by
    intro i hi hdir
    rw [inRoot, Fs.entered_node] at hdir ⊢
    exact (entryTo_fields 2 hi.1).2.1 hdir
  refine ⟨fun j hj => ?_, fun i hi hdir => ?_⟩
  · obtain rfl | ⟨i, k, hi, hdir, hk, hnum, -⟩ := hj
    · exact hone.1
    · obtain ⟨rfl, hsize⟩ := hroot i hi hdir
      have hzero : k = 0 := by
        rw [hsize] at hk
        change 16 * k + 16 ≤ 16 at hk
        omega
      rw [← hnum, hzero, htwo.1]
      exact htwo.2
  · obtain ⟨rfl, -⟩ := hroot i hi hdir
    exact hone.2

/-- `/a` is found, and `a` is its name in the root. -/
theorem namei_follows_file : (∃ r t, namei 1 [47, 97] inRoot = .ok r t ∧ r = some 2 ∧ Borrows [2] inRoot t) ∧
    ∃ r t, nameiparent 1 [97, 47] inRoot = .ok r t ∧ r = some (1, [97]) ∧ Borrows [1] inRoot t := by
  have hlive : (inRoot.node 1).type ≠ 0 := by decide
  obtain ⟨⟨r, t, hrun, hr, hb⟩, -⟩ :=
    namei_follows inRoot_valid.2 inRoot_tree inRoot_valid.1 (List.mem_singleton_self 1) hlive [47, 97]
  obtain ⟨-, r', t', hrun', hr', hb'⟩ :=
    namei_follows inRoot_valid.2 inRoot_tree inRoot_valid.1 (List.mem_singleton_self 1) hlive [97, 47]
  have hfile : inRoot.follow (origin 1 [47, 97]) (components [47, 97]) = some 2 := by decide
  have hdir : inRoot.parent (origin 1 [97, 47]) (components [97, 47]) = some (1, [97]) := by decide
  rw [hfile] at hr
  rw [hdir] at hr'
  subst hr hr'
  exact ⟨⟨_, t, hrun, rfl, hb⟩, _, t', hrun', rfl, hb'⟩

/-- The names before the last one of `a/b` lead to a file; `nameiparent` fails there. -/
theorem nameiparent_file : ∃ (s : Fs) (cwd : Nat) (path : Name), s.Valid ∧ s.Tree ∧ s.Busy 0 [] [cwd] ∧
    (s.node cwd).type ≠ 0 ∧ ¬∃ r t, nameiparent cwd path s = .ok r t ∧
      r = (components path).getLast?.bind fun name =>
        (s.follow (origin cwd path) (components path).dropLast).map fun j => (j, name) := by
  have hlive : (inRoot.node 1).type ≠ 0 := by decide
  refine ⟨inRoot, 1, [97, 47, 98], inRoot_valid.2, inRoot_tree, inRoot_valid.1, hlive, ?_⟩
  rintro ⟨r, t, hrun, hr⟩
  have hspec := namex_answer inRoot_valid.2 inRoot_tree inRoot_valid.1 (List.mem_singleton_self 1) hlive [97, 47, 98] true
  have hanswer := (wp_ok hspec hrun).1
  have hnone : answer inRoot true (origin 1 [97, 47, 98]) (components [97, 47, 98]) = none := by decide
  have hsome : (components [97, 47, 98]).getLast?.bind (fun name =>
      (inRoot.follow (origin 1 [97, 47, 98]) (components [97, 47, 98]).dropLast).map fun j => (j, name)) =
      some (2, [98]) := by decide
  rw [hnone] at hanswer
  rw [hsome, hanswer] at hr
  cases hr

end Xv6.Disk
