import AdvancedXv6.Files.OpenSpec

/-! The system calls that change directories and permissions. -/

namespace Xv6.Files
open Function Effect

variable {v : Version} {H G L : List Nat} {k t : Kernel} {i dp : Nat}

theorem Kernel.updated_inum (k : Kernel) (i : Nat) (f : Dinode → Dinode) :
    ((k.updated i f).inode i).inum = (k.inode i).inum := by
  have h : (k.updated i f).inode i = { k.inode i with copy := f (k.inode i).copy } := update_self ..
  rw [h]

/-- The inode is given a mode. -/
def Kernel.permitted (k : Kernel) (i mode : Nat) : Kernel :=
  { k.updated i (fun d => { d with perm := (mode ^^^ 7) &&& 7 }) with
    notes := .chmod (k.inode i).inum mode :: k.notes }

/-- A change of an inode in the cache that is then written to the disk. -/
theorem iupdate_state (k : Kernel) (i : Nat) (f : Dinode → Dinode) :
    Ends (iupdate i) (k.setInode i fun n => { n with copy := f n.copy }) fun _ t => t = k.updated i f := by
  refine .modify ?_
  rw [Kernel.setInode_self]
  rfl

theorem addNlink_state (k : Kernel) (i : Nat) (n : Int) : Ends (addNlink i n) k fun _ t =>
    t = k.updated i fun d => { d with nlink := toShort (d.nlink + n) } := by
  rw [addNlink, ends_modify_bind]
  exact iupdate_state k i fun d => { d with nlink := toShort (d.nlink + n) }

theorem isdirempty_spec (k : Kernel) (dp : Nat) : Ends (isdirempty dp) k fun _ t => Mild k t := by
  rw [isdirempty, ends_get_bind]
  dsimp only
  split
  · exact (bmapTo_mild k _ _).bind fun _ t ht => .pure ht
  · exact (bmapTo_mild k _ _).bind fun _ t ht => .pure ht

theorem busy_spec (k : Kernel) (i : Nat) : Ends (busy i) k fun _ t => Mild k t := by
  rw [busy, ends_get_bind]
  refine .ite (fun _ => ?_) fun _ => .pure (.refl k)
  exact (isdirempty_spec k i).bind fun _ t ht => .pure ht

theorem locks_pair (hi : i ∉ [dp]) (j : Nat) : j ∈ [i] ↔ j ∈ [i, dp] ∧ j ≠ dp := by
  simp only [List.mem_cons, List.not_mem_nil, or_false] at hi ⊢
  constructor
  · rintro rfl
    exact ⟨.inl rfl, hi⟩
  · rintro ⟨hj, hne⟩
    exact hj.resolve_right hne

section Linking
variable {J : List Nat → List Nat → List Nat → Kernel → Prop} (hJ : Linking v J)
include hJ

theorem addNlink_spec (h : J H G L k) (hi : i ∈ L) (n : Int) :
    Ends (addNlink i n) k fun _ t => J H G L t := by
  refine (addNlink_state k i n).mono fun _ t ht => ?_
  rw [ht]
  exact hJ.count n h hi

theorem linkBad_spec (h : J (i :: H) G L k) : Ends (linkBad i) k fun _ t => J H G L t := by
  refine (ilock_spec hJ.toSteady h ((hJ.inv h).held i List.mem_cons_self)).bind fun _ t ht => ?_
  obtain ⟨ht, hi, -⟩ := ht
  refine (addNlink_spec hJ ht List.mem_cons_self _).bind fun _ u hu => ?_
  exact putEnd_spec hJ.toSteady hu hi _

theorem sysLink_spec (h : J H G [] k) (old new : Option Name) :
    Ends (sysLink old new) k fun _ t => J H G [] t := by
  unfold sysLink
  split
  · rename_i old new
    refine (beginOp_spec k).bind fun _ t ht => ?_
    refine (namei_spec hJ.toSteady (hJ.same h ht) old).bind fun r u hu => ?_
    cases r with
    | none => exact (endOp_spec u).bind fun _ w hw => .pure (hJ.same hu hw)
    | some i =>
      refine (ilock_spec hJ.toSteady hu ((hJ.inv hu).held i List.mem_cons_self)).bind fun _ w hw => ?_
      obtain ⟨hw, hi, -⟩ := hw
      rw [ends_get_bind]
      refine .ite (fun _ => putEnd_spec hJ.toSteady hw hi _) fun _ => ?_
      refine (addNlink_spec hJ hw List.mem_cons_self _).bind fun _ x hx => ?_
      refine (iunlock_spec hJ.toSteady hx List.mem_cons_self (mem_locks hi)).bind fun _ y hy => ?_
      refine (namex_spec hJ.toSteady hy.1 new true).bind fun r z hz => ?_
      cases r with
      | none => exact linkBad_spec hJ hz
      | some r =>
        obtain ⟨dp, name⟩ := r
        refine (ilock_spec hJ.toSteady hz ((hJ.inv hz).held dp List.mem_cons_self)).bind fun _ a ha => ?_
        obtain ⟨ha, hdp, -⟩ := ha
        rw [ends_get_bind]
        refine .ite (fun _ => ?_) fun _ => ?_
        · refine (iunlockput_spec hJ.toSteady ha List.mem_cons_self (mem_locks hdp)).bind fun _ b hb => ?_
          exact linkBad_spec hJ hb
        rw [ends_get_bind]
        refine (dirlink_spec hJ ha List.mem_cons_self name _).bind fun ok b hb => ?_
        refine .ite (fun _ => ?_) fun _ => ?_
        · refine (iunlockput_spec hJ.toSteady hb List.mem_cons_self (mem_locks hdp)).bind fun _ c hc => ?_
          refine (iput_spec hJ.toSteady hc).bind fun _ d hd => ?_
          exact (endOp_spec d).bind fun _ e he => .pure (hJ.same hd.1 he)
        · refine (iunlockput_spec hJ.toSteady hb List.mem_cons_self (mem_locks hdp)).bind fun _ c hc => ?_
          exact linkBad_spec hJ hc
  · exact .pure h

theorem sysChmod_spec (h : J H G [] k) (file : Option Name) (mode : Int)
    (hchmod : ∀ {H G L k i} (mode), J H G L k → i ∈ L → J H G L (k.permitted i mode)) :
    Ends (sysChmod file mode) k fun _ t => J H G [] t := by
  cases file with
  | none => exact .pure h
  | some file =>
    refine .ite (fun _ => .pure h) fun _ => ?_
    refine (beginOp_spec k).bind fun _ t ht => ?_
    refine (namei_spec hJ.toSteady (hJ.same h ht) file).bind fun r u hu => ?_
    cases r with
    | none => exact (endOp_spec u).bind fun _ w hw => .pure (hJ.same hu hw)
    | some i =>
      refine (ilock_spec hJ.toSteady hu ((hJ.inv hu).held i List.mem_cons_self)).bind fun _ w hw => ?_
      obtain ⟨hw, hi, -⟩ := hw
      rw [ends_modify_bind]
      refine (iupdate_state w i fun d => { d with perm := (mode.toNat ^^^ 7) &&& 7 }).bind fun _ x hx => ?_
      rw [ends_modify_bind, hx]
      have hc := hchmod mode.toNat hw List.mem_cons_self
      rw [Kernel.permitted, ← Kernel.updated_inum w i fun d => { d with perm := (mode.toNat ^^^ 7) &&& 7 }] at hc
      exact putEnd_spec hJ.toSteady hc hi _

theorem unlinkBad_spec (h : J (dp :: H) G (dp :: L) k) (hdp : dp ∉ L) :
    Ends (unlinkBad dp) k fun _ t => J H G L t := putEnd_spec hJ.toSteady h hdp _

theorem removeEntry_spec (h : J (i :: dp :: H) G [i, dp] k) (hi : i ∉ [dp]) (off : Nat) :
    Ends (removeEntry dp i off) k fun _ t => J H G [] t := by
  have hdp : dp ∈ [i, dp] := List.mem_cons_of_mem _ List.mem_cons_self
  refine (writeEntry_spec hJ h hdp off _ _).bind fun _ t ht => ?_
  rw [ends_get_bind]
  have hrest : ∀ u, J (i :: dp :: H) G [i, dp] u →
      Ends (do iunlockput dp; addNlink i (-1); iunlockput i; endOp; return .int 0) u
        fun (_ : Ret) t => J H G [] t := by
    intro u hu
    refine (iunlockput_spec hJ.toSteady (hJ.toSteady.swap hu) hdp (locks_pair hi)).bind fun _ w hw => ?_
    refine (addNlink_spec hJ hw List.mem_cons_self _).bind fun _ x hx => ?_
    exact putEnd_spec hJ.toSteady hx List.not_mem_nil _
  refine .ite (fun _ => ?_) fun _ => hrest t ht
  exact (addNlink_spec hJ ht hdp _).bind fun _ u hu => hrest u hu

theorem sysUnlink_spec (h : J H G [] k) (path : Option Name) :
    Ends (sysUnlink path) k fun _ t => J H G [] t := by
  cases path with
  | none => exact .pure h
  | some path =>
    refine (beginOp_spec k).bind fun _ t ht => ?_
    refine (namex_spec hJ.toSteady (hJ.same h ht) path true).bind fun r u hu => ?_
    cases r with
    | none => exact (endOp_spec u).bind fun _ w hw => .pure (hJ.same hu hw)
    | some r =>
      obtain ⟨dp, name⟩ := r
      refine (ilock_spec hJ.toSteady hu ((hJ.inv hu).held dp List.mem_cons_self)).bind fun _ w hw => ?_
      obtain ⟨hw, hdp, -⟩ := hw
      refine .ite (fun _ => unlinkBad_spec hJ hw hdp) fun _ => ?_
      refine (dirlookup_spec hJ.toSteady hw List.mem_cons_self name).bind fun r x hx => ?_
      cases r with
      | none => exact unlinkBad_spec hJ hx hdp
      | some r =>
        obtain ⟨i, off⟩ := r
        refine (ilock_spec hJ.toSteady hx ((hJ.inv hx).held i List.mem_cons_self)).bind fun _ y hy => ?_
        obtain ⟨hy, hi, -⟩ := hy
        rw [ends_get_bind]
        refine .ite (fun _ => .throw _) fun _ => ?_
        refine (busy_spec y i).bind fun b z hz => ?_
        have hz := hJ.same hy hz.toSame
        refine .ite (fun _ => ?_) fun _ => removeEntry_spec hJ hz hi off
        refine (iunlockput_spec hJ.toSteady hz List.mem_cons_self (mem_locks hi)).bind fun _ a ha => ?_
        exact unlinkBad_spec hJ ha hdp

theorem makeDots_spec (h : J H G L k) (hi : i ∈ L) (hdp : dp ∈ L) :
    Ends (makeDots dp i) k fun _ t => J H G L t := by
  refine (addNlink_spec hJ h hdp 1).bind fun _ t ht => ?_
  rw [ends_get_bind]
  refine (dirlink_spec hJ ht hi _ _).bind fun ok u hu => ?_
  refine .ite (fun _ => .throw _) fun _ => ?_
  refine (dirlink_spec hJ hu hi _ _).bind fun ok w hw => ?_
  exact .ite (fun _ => .throw _) fun _ => .pure hw

end Linking

section Stable
variable {J : List Nat → List Nat → List Nat → Kernel → Prop} (hJ : Stable v J)
include hJ

theorem create_spec (h : J H [] [] k) (path : Name) {type : Kind} (htype : type ≠ .free) (major minor : Int) :
    Locks J H (create path type major minor) k := by
  refine (namex_spec hJ.toSteady h path true).bind fun r t ht => ?_
  cases r with
  | none => exact .pure ht
  | some r =>
    obtain ⟨dp, name⟩ := r
    refine (ilock_spec hJ.toSteady ht ((hJ.inv ht).held dp List.mem_cons_self)).bind fun _ u hu => ?_
    obtain ⟨hu, hdp, -⟩ := hu
    refine (dirlookup_spec hJ.toSteady hu List.mem_cons_self name).bind fun r w hw => ?_
    cases r with
    | some r =>
      obtain ⟨i, off⟩ := r
      have hw := hJ.toSteady.swap hw
      refine (iunlockput_spec hJ.toSteady hw List.mem_cons_self (mem_locks hdp)).bind fun _ x hx => ?_
      refine (ilock_spec hJ.toSteady hx ((hJ.inv hx).held i List.mem_cons_self)).bind fun _ y hy => ?_
      obtain ⟨hy, hi, -⟩ := hy
      rw [ends_get_bind]
      refine .ite (fun _ => .pure hy) fun _ => ?_
      exact (iunlockput_spec hJ.toSteady hy List.mem_cons_self (mem_locks hi)).bind fun _ z hz => .pure hz
    | none =>
      obtain ⟨hlt, -, hpos⟩ := (hJ.inv hw).lock dp List.mem_cons_self
      rw [ends_get_bind, (hJ.inv hw).dev dp hlt hpos]
      refine (ialloc_spec hJ.toSteady fun n hn _ _ => hJ.alloc hw hn htype).bind fun i x hx => ?_
      refine (ilock_spec hJ.toSteady hx.1 ((hJ.inv hx.1).held i List.mem_cons_self)).bind fun _ y hy => ?_
      obtain ⟨hy, hi, -⟩ := hy
      rw [ends_modify_bind]
      refine (iupdate_state y i fun d => { d with major, minor, nlink := 1 }).bind fun _ z hz => ?_
      have hz : J (i :: dp :: H) [] [i, dp] z :=
        hz ▸ hJ.update hy List.mem_cons_self (fun _ => rfl) fun _ => rfl
      have hdp : dp ∈ [i, dp] := List.mem_cons_of_mem _ List.mem_cons_self
      have hrest : ∀ a, J (i :: dp :: H) [] [i, dp] a → Locks J H (do
          if !(← dirlink dp name ((← get).inode i).inum) then throw .dirlink
          iunlockput dp
          return some i) a := by
        intro a ha
        refine ends_get_bind.mpr ?_
        refine (dirlink_spec hJ.linking ha hdp name _).bind fun ok b hb => ?_
        refine .ite (fun _ => .throw _) fun _ => ?_
        refine (iunlockput_spec hJ.toSteady (hJ.toSteady.swap hb) hdp (locks_pair hi)).bind fun _ c hc => ?_
        exact .pure hc
      refine .ite (fun _ => ?_) fun _ => hrest z hz
      exact (makeDots_spec hJ.linking hz List.mem_cons_self hdp).bind fun _ a ha => hrest a ha

/-- What a step keeps: only `exec` leaves a reference over. -/
theorem step_stable (hchmod : ∀ {H G L k i} (mode), J H G L k → i ∈ L → J H G L (k.permitted i mode))
    (h : J H [] [] k) {e : Event} (ht : k.step e = some t) :
    (J H [] [] t ∧ ¬e.passes v k) ∨ ((∃ i, J (i :: H) [] [] t) ∧ e.passes v k) :=
  step_spec hJ.toSteady h (fun _ path _ _ major minor _ hc hs =>
      create_spec hJ (hJ.same h hs) path (Call.creates_ne hc) major minor)
    (fun old new _ => sysLink_spec hJ.linking h old new) (fun path _ => sysUnlink_spec hJ.linking h path)
    (fun file mode _ => sysChmod_spec hJ.linking h file mode hchmod) ht

end Stable

end Xv6.Files
