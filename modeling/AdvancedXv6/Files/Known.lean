import AdvancedXv6.Files.Exact

/-! In every run the cache knows the inodes without links, and the counts are `short`s. -/

namespace Xv6.Files
open Function Effect Run

variable {H G L : List Nat} {k t : Kernel} {i n : Nat} {e : Event} {img : Image}

def Kernel.Short (k : Kernel) : Prop := ∀ n, toShort (k.disk.nlink n) = k.disk.nlink n

theorem toShort_toShort (d : Int) : toShort (toShort d) = toShort d := by
  unfold toShort
  omega

theorem Kernel.Short.of_disk (h : k.Short) (hd : t.disk = k.disk) : t.Short := by
  rw [Kernel.Short, hd]
  exact h

theorem Kernel.Short.set (h : k.Short) {v : Int} (hv : toShort v = v) (hd : t.disk = k.disk.setNlink n v) : t.Short := by
  intro m
  rw [hd]
  by_cases hm : m = n
  · rw [hm, Disk.setNlink_self, hv]
  · rw [Disk.setNlink_of_ne hm, h m]

theorem Kernel.Short.put (h : k.Short) {type : Kind} (hd : t.disk = k.disk.put n type []) : t.Short := by
  intro m
  rw [hd]
  by_cases hm : m = n
  · rw [hm, Disk.put_nlink]
    rfl
  · rw [Disk.put_nlink_of_ne hm, h m]

/-- What holds in all states. -/
structure Known (H G L : List Nat) (k : Kernel) : Prop extends Cached none H G L k where
  short : k.Short

theorem linking_known : Linking .a3 Known where
  inv h := h.inv
  same h hs := ⟨(steady_cached none).same h.toCached hs, h.short.of_disk hs.disk⟩
  table h hseats hinv := ⟨(steady_cached none).table h.toCached hseats hinv, h.short⟩
  consult i h := ⟨(steady_cached none).consult i h.toCached, h.short⟩
  swap h := ⟨(steady_cached none).swap h.toCached, h.short⟩
  grab h hi hpos := ⟨h.toCached.grab hi hpos, h.short⟩
  recycle h hi hzero hnew := ⟨h.toCached.recycle hi hzero hnew, h.short⟩
  lock h hi hpos _ hfree := ⟨h.toCached.lockAt hi hpos hfree, h.short⟩
  unlock h hi hL := ⟨h.toCached.unlock hi hL, h.short⟩
  drop {_ _ _ k i} h hl := by
    refine ⟨h.toCached.drop hl, ?_⟩
    by_cases hun : k.Unused i
    · exact h.short.put (Kernel.disk_dropped hun h.inv.version)
    · rw [Kernel.dropped_kept hun]
      exact h.short
  flush {_ _ _ k i} h hi := by
    obtain ⟨hlt, hvalid, hpos⟩ := h.inv.lock _ hi
    refine ⟨(steady_cached none).flush h.toCached hi, h.short.set ?_ (Kernel.disk_updated h.inv hi fun _ => rfl)⟩
    rw [id_eq, h.copy _ hlt hpos hvalid, h.short]
  count d h hi := ⟨h.toCached.counted hi d, h.short.set (toShort_toShort _) (h.toCached.disk_counted hi d)⟩
  enter n e h hdp := ⟨h.toCached.enter hdp n e, fun m => by
    rw [h.toCached.disk_entered hdp]
    exact h.short m⟩

/-- The new inode is known before it has a name. -/
theorem create_known (h : Known H [] [] k) (path : Name) {type : Kind} (major minor : Int) :
    Locks Known H (create path type major minor) k := by
  have hJ := linking_known
  have hS := hJ.toSteady
  refine (namex_spec hS h path true).bind fun r t ht => ?_
  cases r with
  | none => exact .pure ht
  | some r =>
    obtain ⟨dp, name⟩ := r
    refine (ilock_spec hS ht (ht.inv.held dp List.mem_cons_self)).bind fun _ u hu => ?_
    obtain ⟨hu, hdp, -⟩ := hu
    refine (dirlookup_spec hS hu List.mem_cons_self name).bind fun r w hw => ?_
    cases r with
    | some r =>
      obtain ⟨i, off⟩ := r
      refine (iunlockput_spec hS (hS.swap hw) List.mem_cons_self (mem_locks hdp)).bind fun _ x hx => ?_
      refine (ilock_spec hS hx (hx.inv.held i List.mem_cons_self)).bind fun _ y hy => ?_
      obtain ⟨hy, hi, -⟩ := hy
      rw [ends_get_bind]
      refine .ite (fun _ => .pure hy) fun _ => ?_
      exact (iunlockput_spec hS hy List.mem_cons_self (mem_locks hi)).bind fun _ z hz => .pure hz
    | none =>
      obtain ⟨hlt, -, hpos⟩ := hw.inv.lock dp List.mem_cons_self
      rw [ends_get_bind, hw.inv.dev dp hlt hpos]
      refine (ialloc_state hw.toCached type).bind fun i x hx => ?_
      obtain ⟨n, -, -, -, hx, hxd, hxi, -⟩ := hx
      refine (ilock_spec (steady_cached (some n)) hx (hx.inv.held i List.mem_cons_self)).bind fun _ y hy => ?_
      obtain ⟨hy, hi, rfl⟩ := hy
      have hyi := ((calm_locked x i [i]).inum i (.inl List.mem_cons_self)).trans hxi
      have hyd : (x.lockedAt i).disk = w.disk.put n type [] := hxd
      generalize x.lockedAt i = y at *
      rw [ends_modify_bind]
      refine (iupdate_state y i fun d => { d with major, minor, nlink := 1 }).bind fun _ z hz => ?_
      have hz : Known (i :: dp :: H) [] [i, dp] z := by
        have hzd : z.disk = y.disk.setNlink (y.inode i).inum 1 :=
          hz ▸ Kernel.disk_updated hy.inv List.mem_cons_self fun _ => rfl
        refine ⟨?_, (hw.short.put hyd).set rfl hzd⟩
        rw [hz]
        refine hy.update List.mem_cons_self (fun _ => rfl) (fun _ => rfl) fun m hm _ hnm => ?_
        exact hm ((Option.some.inj hnm).symm.trans hyi.symm)
      have hdp : dp ∈ [i, dp] := List.mem_cons_of_mem _ List.mem_cons_self
      have hrest : ∀ a, Known (i :: dp :: H) [] [i, dp] a → Locks Known H (do
          if !(← dirlink dp name ((← get).inode i).inum) then throw .dirlink
          iunlockput dp
          return some i) a := by
        intro a ha
        refine ends_get_bind.mpr ?_
        refine (dirlink_spec hJ ha hdp name _).bind fun ok b hb => ?_
        refine .ite (fun _ => .throw _) fun _ => ?_
        refine (iunlockput_spec hS (hS.swap hb) hdp (locks_pair hi)).bind fun _ c hc => ?_
        exact .pure hc
      refine .ite (fun _ => ?_) fun _ => hrest z hz
      exact (makeDots_spec hJ hz List.mem_cons_self hdp).bind fun _ a ha => hrest a ha

theorem step_known (h : Known [] [] [] k) (ht : k.step e = some t) : Known [] [] [] t := by
  have hJ := linking_known
  have hstep := step_spec hJ.toSteady h (fun c path type u major minor _ _ hs =>
      create_known (hJ.same h hs) path major minor) (fun old new _ => sysLink_spec hJ h old new)
    (fun path _ => sysUnlink_spec hJ h path) (fun file mode he => ?_) ht
  · rcases hstep with ⟨ht, -⟩ | ⟨-, hpass⟩
    · exact ht
    · exact absurd hpass.1 (by decide)
  · subst he
    rw [Kernel.step, h.inv.version] at ht
    exact absurd ht (by simp [Call.known])

theorem boot_known (img : Image) : Known [] [] [] (img.boot .a3) := by
  have hnlink : ∀ n, (img.dinode n).type ≠ .free → (img.dinode n).nlink = 1 := by
    intro n hn
    rw [Image.dinode] at hn ⊢
    split_ifs at hn ⊢
    · rfl
    · rfl
    · exact absurd rfl hn
  have hlinks : ∀ n, (img.boot .a3).disk.type n ≠ .free → (img.boot .a3).disk.nlink n ≠ 0 := by
    intro n hn hzero
    have hone : (img.dinode n).nlink = 0 := hzero
    rw [hnlink n hn] at hone
    exact absurd hone (by decide)
  refine ⟨⟨inv_boot img .a3, fun i _ hpos hvalid => ?_, fun n hn hzero _ => absurd hzero (hlinks n hn),
    fun i _ _ _ hfree _ => hlinks _ hfree, fun p hp => ?_⟩, fun n => ?_⟩
  · rw [boot_inode img .a3 hpos] at hvalid
    exact absurd hvalid (by simp [Image.boot])
  · rw [List.mem_singleton.mp hp]
    exact (by decide : Kind.dir ≠ .free)
  · change toShort (img.dinode n).nlink = (img.dinode n).nlink
    rw [Image.dinode]
    split_ifs <;> rfl

theorem known_reaches (h : Reaches Kernel.step (img.boot .a3) k) : Known [] [] [] k :=
  Reaches.invariant h (fun _ _ _ hs ht => step_known hs ht) (boot_known img)

end Xv6.Files
