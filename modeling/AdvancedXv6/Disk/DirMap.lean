import AdvancedXv6.Disk.Directory

/-! Directories are finite maps from names to inode numbers, whatever `dirlink` and `sys_unlink` do to them. -/

namespace Xv6.Disk
open Function Effect Bytes Fs
variable {s s₀ t : Fs} {dp k : Nat} {name : Name} {x : List UInt8}

/-! ### Maps -/

namespace Fs

/-- The directory is the finite map `m`. -/
structure Maps (m : List UInt8 → Option Nat) (dp : Nat) (s : Fs) : Prop where
  dir : (s.node dp).type = tDir
  whole : (s.node dp).size % direntSize = 0
  unique : ∀ k k', s.Live dp k → s.Live dp k' → s.title dp k = s.title dp k' → k = k'
  find : ∀ x i, m x = some i ↔ ∃ k, s.Live dp k ∧ s.title dp k = x ∧ s.inum dp k = i

variable {m : List UInt8 → Option Nat}

theorem entryOf_some (h : s.entryOf dp x = some k) : s.Live dp k ∧ s.title dp k = x := by
  have htrue : s.bears dp x k = true := List.find?_some h
  have hbears := of_decide_eq_true htrue
  exact ⟨⟨List.mem_range.mp (List.mem_of_find?_eq_some h), hbears.1⟩, hbears.2⟩

theorem entryOf_none (h : s.entryOf dp x = none) (hk : s.Live dp k) : s.title dp k ≠ x := fun hx =>
  List.find?_eq_none.mp h k (List.mem_range.mpr hk.1) (decide_eq_true ⟨hk.2, hx⟩)

/-- The hole is not in use, and it is the end only if there is no other. -/
theorem hole_le (s : Fs) (dp : Nat) : s.hole dp ≤ s.entries dp ∧ ¬s.Live dp (s.hole dp) ∧
    (s.hole dp = s.entries dp → ∀ k < s.entries dp, s.Live dp k) := by
  rw [hole]
  cases hfind : (List.range (s.entries dp)).find? (s.vacant dp) with
  | none =>
    refine ⟨Nat.le_refl _, fun hlive => absurd hlive.1 (Nat.lt_irrefl _), fun _ k hk => ⟨hk, fun h0 => ?_⟩⟩
    exact List.find?_eq_none.mp hfind k (List.mem_range.mpr hk) (decide_eq_true h0)
  | some k =>
    have hk := List.mem_range.mp (List.mem_of_find?_eq_some hfind)
    have hvacant : s.vacant dp k = true := List.find?_some hfind
    exact ⟨hk.le, fun hlive => hlive.2 (of_decide_eq_true hvacant), fun hend => absurd hend hk.ne⟩

namespace Maps
variable (h : s.Maps m dp)
include h

theorem leaves (hs : Leaves dp s t) : t.Maps m dp where
  dir := hs.type.trans h.dir
  whole := by rw [hs.size, h.whole]
  unique k k' hk hk' heq := by
    rw [hs.title, hs.title] at heq
    exact h.unique k k' (hs.live.mp hk) (hs.live.mp hk') heq
  find x i := by
    rw [h.find]
    refine exists_congr fun k => ?_
    rw [hs.live, hs.title, hs.inum]

theorem entryOf_eq (x : List UInt8) : (s.entryOf dp x).map (s.inum dp) = m x := by
  cases hx : s.entryOf dp x with
  | some k =>
    obtain ⟨hlive, htitle⟩ := entryOf_some hx
    exact ((h.find x _).mpr ⟨k, hlive, htitle, rfl⟩).symm
  | none =>
    refine (Option.eq_none_iff_forall_ne_some.mpr fun i hi => ?_).symm
    obtain ⟨k, hlive, htitle, -⟩ := (h.find x i).mp hi
    exact entryOf_none hx hlive htitle

theorem entryOf_none_iff : s.entryOf dp x = none ↔ m x = none := by
  rw [← h.entryOf_eq, Option.map_eq_none_iff]

/-- A new entry for a name that is not in use. -/
theorem link {inum : Nat} (hx : s.entryOf dp (key name) = none) (hpos : 0 < inum) (hi : inum < ninodes)
    (he : Enters dp (s.hole dp) (dirent inum name) s t) : t.Maps (update m (key name) (some inum)) dp := by
  obtain ⟨hle, hfree, -⟩ := s.hole_le dp
  have hnum : t.inum dp (s.hole dp) = inum := he.inum_self.trans (dirent_inum hi)
  have htitle : t.title dp (s.hole dp) = key name := he.title_self.trans upto_strncpy
  have hself : t.Live dp (s.hole dp) := by
    refine ⟨?_, hnum ▸ hpos.ne'⟩
    rw [he.entries h.whole]
    exact Nat.lt_of_succ_le (le_max_right ..)
  have hother : ∀ k, k ≠ s.hole dp → (t.Live dp k ↔ s.Live dp k) := fun k hk => by
    rw [Live, Live, he.entries h.whole, he.inum_other hk]
    exact and_congr_left fun _ => by omega
  have hold : ∀ k, k ≠ s.hole dp → t.Live dp k → t.title dp k ≠ key name := fun k hk hlive => by
    rw [he.title_other hk]
    exact entryOf_none hx ((hother k hk).mp hlive)
  refine ⟨he.type.trans h.dir, he.whole h.whole, fun k k' hk hk' heq => ?_, fun x i => ?_⟩
  · by_cases hkh : k = s.hole dp
    · subst hkh
      by_contra hne
      exact hold k' (Ne.symm hne) hk' (heq.symm.trans htitle)
    · by_cases hkh' : k' = s.hole dp
      · subst hkh'
        exact absurd (heq.trans htitle) (hold k hkh hk)
      · rw [he.title_other hkh, he.title_other hkh'] at heq
        exact h.unique k k' ((hother k hkh).mp hk) ((hother k' hkh').mp hk') heq
  · by_cases hxn : x = key name
    · subst hxn
      rw [update_self, Option.some.injEq]
      constructor
      · rintro rfl
        exact ⟨_, hself, htitle, hnum⟩
      · rintro ⟨k, hlive, hk, rfl⟩
        obtain rfl : k = s.hole dp := by_contra fun hne => hold k hne hlive hk
        exact hnum.symm
    · rw [update_of_ne hxn, h.find]
      refine exists_congr fun k => ?_
      by_cases hk : k = s.hole dp
      · subst hk
        exact iff_of_false (fun hand => hfree hand.1) fun hand => hxn (hand.2.1.symm.trans htitle)
      · rw [hother k hk, he.title_other hk, he.inum_other hk]

/-- An entry is cleared. -/
theorem unlink (hx : s.entryOf dp (key name) = some k) (he : Enters dp k (fun _ => 0) s t) :
    t.Maps (update m (key name) none) dp := by
  obtain ⟨hlive, htitle⟩ := entryOf_some hx
  have hself : ¬t.Live dp k := fun hk => hk.2 (he.inum_self.trans word_zero)
  have hother : ∀ j, j ≠ k → (t.Live dp j ↔ s.Live dp j) := fun j hj => by
    rw [Live, Live, he.entries h.whole, he.inum_other hj]
    have hlt := hlive.1
    exact and_congr_left fun _ => by omega
  have hne : ∀ {j}, t.Live dp j → j ≠ k := fun hj heq => hself (heq ▸ hj)
  refine ⟨he.type.trans h.dir, he.whole h.whole, fun j j' hj hj' heq => ?_, fun x i => ?_⟩
  · rw [he.title_other (hne hj), he.title_other (hne hj')] at heq
    exact h.unique j j' ((hother j (hne hj)).mp hj) ((hother j' (hne hj')).mp hj') heq
  · by_cases hxn : x = key name
    · subst hxn
      rw [update_self]
      refine iff_of_false (Option.some_ne_none i).symm ?_
      rintro ⟨j, hj, hjx, -⟩
      rw [he.title_other (hne hj)] at hjx
      exact hne hj (h.unique j k ((hother j (hne hj)).mp hj) hlive (hjx.trans htitle.symm))
    · rw [update_of_ne hxn, h.find]
      refine exists_congr fun j => ?_
      by_cases hj : j = k
      · subst hj
        exact iff_of_false (fun hand => hxn (hand.2.1.symm.trans htitle)) fun hand => hself hand.1
      · rw [hother j hj, he.title_other hj, he.inum_other hj]

end Maps

end Fs

/-! ### Sequences of calls -/

/-- The directory is locked in a transaction. -/
def Fs.InUse (dp : Nat) (s : Fs) : Prop := ∃ o L H, s.Busy o L H ∧ dp ∈ L

/-- A call on a directory that the caller has locked. -/
inductive DirCall
  | dirlink (name : Name) (inum : Nat)
  | unlink (name : Name)
  deriving DecidableEq

namespace DirCall

/-- Whether the call adds or removes an entry. -/
def run (dp : Nat) : DirCall → M Bool
  | dirlink name inum => Disk.dirlink dp name inum
  | unlink name => Option.isSome <$> removeEntry dp name

/-- What is linked is an inode. -/
def Proper : DirCall → Prop
  | dirlink _ inum => 0 < inum ∧ inum < ninodes
  | unlink _ => True

/-- What the call does to a map when it does not fail. -/
def effect (m : List UInt8 → Option Nat) : DirCall → List UInt8 → Option Nat
  | dirlink name inum => update m (key name) (some inum)
  | unlink name => update m (key name) none

end DirCall

/-- What was linked last under each name and not removed since, in a directory that began as `m`; the latest call is
the first one. -/
def linked (m : List UInt8 → Option Nat) : List (DirCall × Bool) → List UInt8 → Option Nat
  | [] => m
  | (c, ok) :: calls => if ok then c.effect (linked m calls) else linked m calls

/-- Runs of calls on the directory, with what else the kernel does in between. -/
inductive DirRun (dp : Nat) (s₀ : Fs) : List (DirCall × Bool) → Fs → Prop
  | start : DirRun dp s₀ [] s₀
  | call {calls : List (DirCall × Bool)} {s t : Fs} {c : DirCall} {ok : Bool} :
      DirRun dp s₀ calls s → c.Proper → c.run dp s = .ok ok t → DirRun dp s₀ ((c, ok) :: calls) t
  | other {calls : List (DirCall × Bool)} {s t : Fs} :
      DirRun dp s₀ calls s → t.InUse dp → Leaves dp s t → DirRun dp s₀ calls t

section Runs
variable {m : List UInt8 → Option Nat} {calls : List (DirCall × Bool)} {c : DirCall} {ok : Bool}

theorem dirCall_maps (h : s.InUse dp) (hm : s.Maps m dp) (hc : c.Proper) (hrun : c.run dp s = .ok ok t) :
    t.InUse dp ∧ t.Maps (if ok then c.effect m else m) dp := by
  obtain ⟨o, L, H, hbusy, hdp⟩ := h
  cases c with
  | dirlink name inum =>
    obtain ⟨hpos, hi⟩ := hc
    obtain ⟨hbusy', hfound, hmissing⟩ := wp_ok (dirlink_enters hbusy hdp hm.dir hm.whole hi) hrun
    refine ⟨⟨o, L, H, hbusy', hdp⟩, ?_⟩
    cases hx : s.entryOf dp (key name) with
    | some k =>
      obtain ⟨rfl, hleaves⟩ := hfound (by rw [hx]; exact Option.some_ne_none k)
      exact hm.leaves hleaves
    | none =>
      obtain ⟨rfl, henters⟩ := hmissing hx
      exact hm.link hx hpos hi henters
  | unlink name =>
    have hspec : wp (Option.isSome <$> removeEntry dp name) s
        (fun ok t => t.InUse dp ∧ t.Maps (if ok then update m (key name) none else m) dp) fun _ _ => True := by
      rw [wp_map]
      refine wp_mono (removeEntry_enters hbusy hdp hm.dir hm.whole) (fun r t ht => ?_) fun _ _ _ => trivial
      cases r with
      | none => exact ⟨⟨o, L, H, ht.1, hdp⟩, hm.leaves ht.2⟩
      | some ip =>
        obtain ⟨hbusy', k, hx, henters⟩ := ht
        exact ⟨⟨o, ip :: L, ip :: H, hbusy', List.mem_cons_of_mem ip hdp⟩, hm.unlink hx henters⟩
    have hpost := wp_ok (a := ok) hspec hrun
    exact hpost

theorem DirRun.maps (hr : DirRun dp s₀ calls s) (h₀ : s₀.InUse dp) (hm : s₀.Maps m dp) :
    s.InUse dp ∧ s.Maps (linked m calls) dp := by
  induction hr with
  | start => exact ⟨h₀, hm⟩
  | call _ hc hrun ih => exact dirCall_maps ih.1 ih.2 hc hrun
  | other _ huse hleaves ih => exact ⟨huse, ih.2.leaves hleaves⟩

/-- In every state of a run `dirlookup` finds what was linked last and not removed since, no two entries have one
name, and `dirlink` adds an entry behind the others only if all of them are in use; it always returns, unless there
is no space. -/
theorem directory_is_map (h₀ : s₀.InUse dp) (hm : s₀.Maps m dp) (hr : DirRun dp s₀ calls s) :
    (∀ name, ∃ r t, dirlookup dp name s = .ok r t ∧ r.map Prod.fst = linked m calls (key name) ∧
      ∀ i off, r = some (i, off) →
        ∃ k, off = direntSize * k ∧ s.Live dp k ∧ s.title dp k = key name ∧ s.inum dp k = i) ∧
    (∀ k k', s.Live dp k → s.Live dp k' → s.title dp k = s.title dp k' → k = k') ∧
    (∀ name inum ok t, inum < ninodes → dirlink dp name inum s = .ok ok t →
      (ok = true ↔ linked m calls (key name) = none) ∧
      (s.entries dp < t.entries dp → t.entries dp = s.entries dp + 1 ∧ ∀ k < s.entries dp, s.Live dp k)) ∧
    ∀ name inum e t, inum < ninodes → dirlink dp name inum s = .error e t → Exhausted dp s e t := by
  obtain ⟨⟨o, L, H, hbusy, hdp⟩, hmaps⟩ := hr.maps h₀ hm
  refine ⟨fun name => ?_, hmaps.unique, fun name inum ok t hi hrun => ?_, fun name inum e t hi hrun =>
    wp_error (dirlink_enters hbusy hdp hmaps.dir hmaps.whole hi) hrun⟩
  · have hlookup := @dirlookup_entryOf H L o s dp name hbusy hdp hmaps.dir hmaps.whole
    obtain ⟨r, t, hrun, hr, -⟩ := exists_ok_of_wp hlookup
    refine ⟨r, t, hrun, ?_, fun i off heq => ?_⟩
    · rw [hr, ← hmaps.entryOf_eq, Option.map_map]
      rfl
    · rw [hr, Option.map_eq_some_iff] at heq
      obtain ⟨k, hx, hpair⟩ := heq
      obtain ⟨hlive, htitle⟩ := entryOf_some hx
      exact ⟨k, (Prod.mk.inj hpair).2.symm, hlive, htitle, (Prod.mk.inj hpair).1⟩
  · obtain ⟨-, hfound, hmissing⟩ := wp_ok (dirlink_enters hbusy hdp hmaps.dir hmaps.whole hi) hrun
    rw [← hmaps.entryOf_none_iff]
    cases hx : s.entryOf dp (key name) with
    | some k =>
      obtain ⟨rfl, hleaves⟩ := hfound (by rw [hx]; exact Option.some_ne_none k)
      refine ⟨iff_of_false Bool.false_ne_true (Option.some_ne_none k), fun hgrow => ?_⟩
      rw [hleaves.entries] at hgrow
      exact absurd hgrow (Nat.lt_irrefl _)
    | none =>
      obtain ⟨rfl, henters⟩ := hmissing hx
      obtain ⟨hle, -, hend⟩ := s.hole_le dp
      refine ⟨iff_of_true rfl rfl, fun hgrow => ?_⟩
      rw [henters.entries hmaps.whole] at hgrow ⊢
      have hlast : s.hole dp = s.entries dp := by omega
      exact ⟨by omega, hend hlast⟩

/-- The calls one after the other. -/
def runDir (dp : Nat) : List DirCall → List (DirCall × Bool) → M (List (DirCall × Bool))
  | [], calls => return calls
  | c :: cs, calls => do
    let ok ← c.run dp
    runDir dp cs ((c, ok) :: calls)

theorem DirRun.runDir (hr : DirRun dp s₀ calls s) (cs : List DirCall) (hcs : ∀ c ∈ cs, c.Proper) :
    wp (runDir dp cs calls) s (fun calls t => DirRun dp s₀ calls t) fun _ _ => True := by
  induction cs generalizing calls s with
  | nil => exact (wp_pure _).mpr hr
  | cons c cs ih =>
    have hc := hcs c List.mem_cons_self
    have hstep : wp (c.run dp) s (fun ok t => DirRun dp s₀ ((c, ok) :: calls) t) fun _ _ => True := by
      cases hrun : c.run dp s with
      | ok ok t => exact wp_of_ok hrun (hr.call hc hrun)
      | error e t => exact wp_of_error hrun trivial
    rw [Disk.runDir]
    exact wp_seq hstep fun ok t ht => ih ht fun c hc => hcs c (List.mem_cons_of_mem _ hc)

end Runs

/-- The root of the image has one name. -/
theorem entryTo_maps : (entryTo 2).Maps (update (fun _ => none) [97] (some 2)) 1 := by
  have hone : (entryTo 2).entries 1 = 1 := by decide
  have hnum : (entryTo 2).inum 1 0 = 2 := by decide
  have htitle : (entryTo 2).title 1 0 = [97] := by decide
  have hlive : ∀ k, (entryTo 2).Live 1 k ↔ k = 0 := fun k => by
    rw [Live, hone]
    refine ⟨fun hand => Nat.lt_one_iff.mp hand.1, ?_⟩
    rintro rfl
    exact ⟨Nat.one_pos, hnum ▸ by decide⟩
  refine ⟨by decide, by decide, fun k k' hk hk' _ => ?_, fun x i => ?_⟩
  · rw [(hlive k).mp hk, (hlive k').mp hk']
  · by_cases hx : x = [97]
    · subst hx
      rw [update_self, Option.some.injEq]
      constructor
      · rintro rfl
        exact ⟨0, (hlive 0).mpr rfl, htitle, hnum⟩
      · rintro ⟨k, hk, -, rfl⟩
        rw [(hlive k).mp hk, hnum]
    · rw [update_of_ne hx]
      refine iff_of_false (Option.some_ne_none i).symm ?_
      rintro ⟨k, hk, hkx, -⟩
      rw [(hlive k).mp hk, htitle] at hkx
      exact hx hkx.symm

/-- The root directory, locked in a transaction. -/
def lockRoot : M Unit := do
  iget rootIno
  modify fun s => { s with outstanding := s.outstanding + 1 }
  ilock rootIno

theorem lockRoot_inUse : wp lockRoot (entryTo 2) (fun _ s => s.InUse 1 ∧ s.Maps (update (fun _ => none) [97] (some 2)) 1)
    fun _ _ => True := by
  have hsound := (entryTo_cold 2).sound (entryTo_exact 2) (entryTo_dense 2) entryTo_names
  have hgood : (entryTo 2).Good [] := ⟨hsound, fun _ => Nat.zero_le _⟩
  have halloc : (entryTo 2).Alloc 1 := ⟨by decide, (entryTo_fields 2 (by decide)).1.mpr (.inl rfl)⟩
  unfold lockRoot
  have hget := wp_and (wp_iget hgood (i := 1) (by decide)) (iget_borrows (s := entryTo 2) (i := 1) (E := fun _ _ => True))
  refine wp_seq (wp_mono hget (fun _ _ ht => ht) fun _ _ _ => trivial) fun _ t ht => ?_
  obtain ⟨⟨hgood', hstays⟩, hb⟩ := ht
  rw [wp_bind, wp_modify]
  obtain ⟨u, hu⟩ : ∃ u : Fs, u = { t with outstanding := t.outstanding + 1 } := ⟨_, rfl⟩
  have hbusy : u.Busy 0 [] [1] := by
    rw [hu]
    refine ⟨⟨hgood'.same_node rfl (fun _ => rfl) hgood'.synced hgood'.live hgood'.refs, hgood'.owned⟩, by simp, ?_⟩
    exact congrArg (· + 1) hstays.outstanding
  have hb' : Borrows [1] (entryTo 2) u := by
    rw [hu]
    exact ⟨hb.blk, hb.logged, hb.ref⟩
  rw [← hu]
  have hlock := wp_and (busy_ilock hbusy List.mem_cons_self) (ilock_borrows (s := u) (i := 1))
  refine wp_mono hlock (fun _ v hv => ?_) fun _ _ _ => trivial
  exact ⟨⟨0, [1], [1], hv.1, List.mem_cons_self⟩,
    entryTo_maps.leaves ((hb'.trans hv.2).leaves hsound hv.1.toSound halloc)⟩

def answerOf {α : Type} : EStateM.Result Panic Fs α → Option α
  | .ok a _ => some a
  | .error _ _ => none

/-- A second name, the first one removed, and a third name in its place. -/
theorem directory_is_map_root : ∃ s₀ s, DirRun 1 s₀
      [(.dirlink [99] 2, true), (.unlink [97], true), (.dirlink [98] 2, true)] s ∧
    ∃ r t, dirlookup 1 [99] s = .ok r t ∧ r.map Prod.fst = some 2 := by
  have hcalls : ∀ c ∈ [DirCall.dirlink [98] 2, .unlink [97], .dirlink [99] 2], c.Proper := by
    rintro c (_ | ⟨_, _ | ⟨_, _ | ⟨_, _ | _⟩⟩⟩)
    · exact ⟨by decide, by decide⟩
    · trivial
    · exact ⟨by decide, by decide⟩
  have hanswer : answerOf ((do lockRoot; runDir 1 [.dirlink [98] 2, .unlink [97], .dirlink [99] 2] []) (entryTo 2)) =
      some [(.dirlink [99] 2, true), (.unlink [97], true), (.dirlink [98] 2, true)] := by decide +kernel
  have hspec : wp (do lockRoot; runDir 1 [.dirlink [98] 2, .unlink [97], .dirlink [99] 2] []) (entryTo 2)
      (fun calls s => ∃ s₀ : Fs, s₀.InUse 1 ∧ s₀.Maps (update (fun _ => none) [97] (some 2)) 1 ∧ DirRun 1 s₀ calls s)
      fun _ _ => True := by
    refine wp_seq lockRoot_inUse fun _ s₀ h₀ => ?_
    exact wp_mono (DirRun.start.runDir _ hcalls) (fun calls s hr => ⟨s₀, h₀.1, h₀.2, hr⟩) fun _ _ he => he
  cases hrun : (do lockRoot; runDir 1 [.dirlink [98] 2, .unlink [97], .dirlink [99] 2] []) (entryTo 2) with
  | error e s =>
    rw [hrun] at hanswer
    cases hanswer
  | ok calls s =>
    rw [hrun] at hanswer
    obtain rfl := Option.some.inj hanswer
    obtain ⟨s₀, huse, hmaps, hr⟩ := wp_ok hspec hrun
    obtain ⟨r, t, hlookup, hr', -⟩ := (directory_is_map huse hmaps hr).1 [99]
    exact ⟨s₀, s, hr, r, t, hlookup, hr'.trans (by decide)⟩

end Xv6.Disk
