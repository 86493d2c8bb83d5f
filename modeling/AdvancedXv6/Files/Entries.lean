import AdvancedXv6.Files.Tree

/-! Entries that are written into a directory, and what they do to the links. -/

namespace Xv6.Files.Disk
open Function

variable {D : Disk} {c j m n p : Nat} {e e' a b : Dirent} {es : List Dirent} {name : Name}

/-- The entry is overwritten, or appended. -/
def place (es : List Dirent) (n : Nat) (e : Dirent) : List Dirent :=
  if n < es.length then es.set n e else es ++ [e]

/-- The first entry that names nothing, or the end. -/
def slot (es : List Dirent) : Nat := (es.findIdx? fun e => decide (e.inum = 0)).getD es.length

theorem place_two (a b : Dirent) (es : List Dirent) (n : Nat) (e : Dirent) :
    place (a :: b :: es) (n + 2) e = a :: b :: place es n e := by
  have hlt : n + 2 < (a :: b :: es).length ↔ n < es.length := by simp
  rw [place, place]
  by_cases hn : n < es.length
  · rw [if_pos hn, if_pos (hlt.mpr hn)]
    rfl
  · rw [if_neg hn, if_neg (hlt.not.mpr hn)]
    rfl

theorem mem_place {x : Dirent} (hx : x ∈ place es n e) : x ∈ es ∨ x = e := by
  rw [place] at hx
  split at hx
  · exact List.mem_or_eq_of_mem_set hx
  · rcases List.mem_append.mp hx with hx | hx
    · exact .inl hx
    · exact .inr (List.mem_singleton.mp hx)

/-- An entry of another inode is written over. -/
theorem naming_place (hold : ∀ e', es[n]? = some e' → e'.inum ≠ m) :
    naming (place es n e) m = naming es m + if e.inum = m then 1 else 0 := by
  rw [naming, naming, place]
  by_cases hn : n < es.length
  · have hne : ¬es[n].inum = m := hold _ (List.getElem?_eq_getElem hn)
    rw [if_pos hn, List.countP_set hn]
    simp [hne]
  · rw [if_neg hn, List.countP_append, List.countP_singleton]
    simp

/-- An entry is cleared. -/
theorem naming_clear (hn : es[n]? = some e) (hm : 0 < m) :
    naming (place es n ⟨0, []⟩) m + (if e.inum = m then 1 else 0) = naming es m := by
  obtain ⟨hlt, rfl⟩ := List.getElem?_eq_some_iff.mp hn
  rw [naming, naming, place, if_pos hlt, List.countP_set hlt]
  by_cases hem : es[n].inum = m
  · have : 0 < es.countP fun e => decide (e.inum = m) :=
      List.countP_pos_iff.mpr ⟨es[n], List.getElem_mem hlt, decide_eq_true hem⟩
    simp only [hem, decide_true, if_true, hm.ne, decide_false, Bool.false_eq_true, if_false]
    omega
  · simp [hem, hm.ne]

theorem slot_two (ha : a.inum ≠ 0) (hb : b.inum ≠ 0) (es : List Dirent) : slot (a :: b :: es) = slot es + 2 := by
  rw [slot, slot, List.findIdx?_cons, List.findIdx?_cons]
  simp only [ha, hb, decide_false, Bool.false_eq_true, if_false]
  cases es.findIdx? fun e => decide (e.inum = 0) with
  | none => rfl
  | some n => rfl

theorem slot_zero (h : es[slot es]? = some e) : e.inum = 0 := by
  rw [slot] at h
  cases hfind : es.findIdx? fun e => decide (e.inum = 0) with
  | none =>
    rw [hfind, Option.getD_none, List.getElem?_eq_none (Nat.le_refl _)] at h
    exact absurd h (by simp)
  | some n =>
    obtain ⟨hn, hp, -⟩ := List.findIdx?_eq_some_iff_getElem.mp hfind
    rw [hfind, Option.getD_some, List.getElem?_eq_getElem hn] at h
    rw [← Option.some.inj h]
    exact of_decide_eq_true hp

/-- The directory with the entry written. -/
def enter (D : Disk) (p n : Nat) (e : Dirent) : Disk :=
  { D with entries := update D.entries p (place (D.entries p) n e) }

theorem Tree.enter_eq (h : D.Tree) (hp : D.type p = .dir) (n : Nat) (e : Dirent) :
    D.enter p (n + 2) e = D.relist p (place (D.rest p) n e) := by
  rw [enter, h.entries_eq hp, place_two, relist]

theorem Tree.slot_eq (h : D.Tree) (hp : D.Live p) : slot (D.entries p) = slot (D.rest p) + 2 := by
  rw [h.entries_eq hp.1]
  exact slot_two (Nat.ne_of_gt (h.bound p (by rw [hp.1]; decide)).1) (Nat.ne_of_gt (h.up_pos hp.1)) _

theorem Tree.add_name (h : D.Tree) (hp : D.type p = .dir) (hname : name ≠ dot ∧ name ≠ dotDot) (hc : e.name = name) :
    ∀ x ∈ place (D.rest p) n e, x.name ≠ dot ∧ x.name ≠ dotDot := by
  intro x hx
  rcases mem_place hx with hx | rfl
  · exact h.rest_name hp x hx
  · exact hc ▸ hname

theorem naming_slot (hm : 0 < m) (es : List Dirent) (e : Dirent) :
    naming (place es (slot es) e) m = naming es m + if e.inum = m then 1 else 0 :=
  naming_place fun e' he' => by
    rw [slot_zero he']
    exact hm.ne

/-- An inode that is no directory gets one more name. -/
theorem Tree.link (h : D.Tree) (hp : D.Live p) (hc : D.type c ≠ .dir) (hfree : D.type c ≠ .free)
    (hname : name ≠ dot ∧ name ≠ dotDot) (hno : D.nlink c ≠ -1) :
    ((D.enter p (slot (D.entries p)) ⟨c, name⟩).setNlink c (toShort (D.nlink c + 1))).Tree := by
  obtain ⟨hlt, hcount⟩ := h.count c hfree
  have hpos := (h.bound c hfree).1
  have hone := naming_slot hpos (D.rest p) ⟨c, name⟩
  rw [if_pos rfl] at hone
  rw [h.slot_eq hp, h.enter_eq hp.1]
  refine h.relink hp hc hfree (h.add_name hp.1 hname rfl) (fun m hm hmc => ?_) ?_ ?_
  · rw [naming_slot hm, if_neg hmc.symm]
    rfl
  · unfold toShort at hcount
    omega
  · rw [hone, hcount]
    unfold toShort
    omega

theorem Tree.entry_two (h : D.Tree) (hp : D.type p = .dir) (hn : (D.entries p)[n]? = some e)
    (hname : e.name ≠ dot ∧ e.name ≠ dotDot) : ∃ j, n = j + 2 ∧ (D.rest p)[j]? = some e := by
  rw [h.entries_eq hp] at hn
  rcases n with _ | _ | j
  · exact absurd (congrArg Dirent.name (Option.some.inj hn)).symm hname.1
  · exact absurd (congrArg Dirent.name (Option.some.inj hn)).symm hname.2
  · exact ⟨j, rfl, hn⟩

theorem naming_pos (hn : es[n]? = some e) : 0 < naming es e.inum := by
  obtain ⟨hlt, rfl⟩ := List.getElem?_eq_some_iff.mp hn
  exact List.countP_pos_iff.mpr ⟨es[n], List.getElem_mem hlt, decide_eq_true rfl⟩

theorem clear_ne (hm : 0 < m) (hn : es[n]? = some e) (hem : m ≠ e.inum) :
    naming (place es n ⟨0, []⟩) m = naming es m := by
  rw [← naming_clear hn hm, if_neg hem.symm]
  rfl

theorem clear_self (hm : 0 < e.inum) (hn : es[n]? = some e) :
    naming (place es n ⟨0, []⟩) e.inum + 1 = naming es e.inum := by
  rw [← naming_clear hn hm, if_pos rfl]

/-- A name of an inode that is no directory is removed. -/
theorem Tree.unlink (h : D.Tree) (hp : D.Live p) (hn : (D.entries p)[n]? = some e)
    (hname : e.name ≠ dot ∧ e.name ≠ dotDot) (hc : D.type e.inum ≠ .dir) (hfree : D.type e.inum ≠ .free) :
    ((D.enter p n ⟨0, []⟩).setNlink e.inum (toShort (D.nlink e.inum - 1))).Tree := by
  obtain ⟨j, rfl, hj⟩ := h.entry_two hp.1 hn hname
  obtain ⟨hlt, hcount⟩ := h.count e.inum hfree
  have hone := clear_self (h.bound e.inum hfree).1 hj
  rw [h.enter_eq hp.1]
  refine h.relink hp hc hfree (h.add_name hp.1 ⟨by decide, by decide⟩ rfl) (fun m hm hmc => ?_) ?_ ?_
  · exact clear_ne hm hj hmc
  · omega
  · rw [← hone, hcount]
    unfold toShort
    omega

/-- An empty directory is removed. -/
theorem Tree.prune (h : D.Tree) (hp : D.Live p) (hn : (D.entries p)[n]? = some e)
    (hname : e.name ≠ dot ∧ e.name ≠ dotDot) (hc : D.Live e.inum) (hcp : e.inum ≠ p)
    (hzero : ∀ x ∈ D.rest e.inum, x.inum = 0) :
    (((D.enter p n ⟨0, []⟩).setNlink p (toShort (D.nlink p - 1))).setNlink e.inum
      (toShort (D.nlink e.inum - 1))).Tree := by
  obtain ⟨j, rfl, hj⟩ := h.entry_two hp.1 hn hname
  have hpos := (h.bound e.inum (by rw [hc.1]; decide)).1
  have hlist : 0 < D.listed e.inum p := by
    rw [listed_live hp]
    exact naming_pos hj
  have hcr : e.inum ≠ rootIno := by
    intro hcr
    have := lists_pos (D := D) (n := rootIno) (h.live_bound hp)
    rw [h.rootless, ← hcr] at this
    omega
  have hup := h.up_eq hc hcr (h.live_bound hp) hlist
  have hone := clear_self hpos hj
  have honly := h.only_name hc hcr hzero
  have htwo := h.two_names hc hcr
  rw [hup] at htwo
  have hsmall := h.dir_names hp.1
  have hnodes : ninodes = 200 := rfl
  have hv : toShort (D.nlink p - 1) = D.names p - 1 := by
    rw [h.dir_nlink hp.1]
    unfold toShort
    omega
  have hw : toShort (D.nlink e.inum - 1) = 0 := by
    rw [h.dir_nlink hc.1, honly]
    rfl
  rw [h.enter_eq hp.1, hv, hw]
  refine h.graft hp hc.1 hcp hcr hup hzero (h.add_name hp.1 ⟨by decide, by decide⟩ rfl)
    (fun m hm hmc => clear_ne hm hj hmc) ⟨Int.le_refl 0, by decide⟩ ?_ (fun hw => absurd hw (by decide)) ?_ ?_
  · omega
  · omega
  · rw [if_neg (by decide), if_pos hc]
    omega

/-- A new directory becomes an entry. -/
theorem Tree.hang (h : D.Tree) (hp : D.Live p) (hc : D.type c = .dir) (hdead : D.nlink c = 0) (hcp : c ≠ p)
    (hup : D.up c = p) (hzero : ∀ x ∈ D.rest c, x.inum = 0) (hname : name ≠ dot ∧ name ≠ dotDot) :
    (((D.enter p (slot (D.entries p)) ⟨c, name⟩).setNlink p (toShort (D.nlink p + 1))).setNlink c 1).Tree := by
  have hpos := (h.bound c (by rw [hc]; decide)).1
  have hlive : ¬D.Live c := fun hl => (h.live_iff hc).mp hl hdead
  have hcr : c ≠ rootIno := fun hcr => hlive (hcr ▸ h.root.1)
  have hone := naming_slot hpos (D.rest p) ⟨c, name⟩
  rw [if_pos rfl] at hone
  have hnone := h.free_names (by rw [hc]; decide) hdead
  have hsmall := h.dir_names hp.1
  have hnodes : ninodes = 200 := rfl
  have hv : toShort (D.nlink p + 1) = D.names p + 1 := by
    rw [h.dir_nlink hp.1]
    unfold toShort
    omega
  rw [h.slot_eq hp, h.enter_eq hp.1, hv]
  refine h.graft hp hc hcp hcr hup hzero (h.add_name hp.1 hname rfl) (fun m hm hmc => ?_)
    ⟨by decide, Int.le_refl 1⟩ ?_ (fun _ => ?_) ?_ ?_
  · rw [naming_slot hm, if_neg hmc.symm]
    rfl
  · omega
  · omega
  · omega
  · rw [if_pos (by decide), if_neg hlive]
    omega

/-- A new inode that is no directory gets its name. -/
theorem Tree.create_file (h : D.Tree) (hp : D.Live p) (hb : 0 < n ∧ n < ninodes) (hn : D.type n = .free)
    {type : Kind} (hdir : type ≠ .dir) (hfree : type ≠ .free) (hname : name ≠ dot ∧ name ≠ dotDot) :
    (((D.put n type []).setNlink n 1).enter p (slot (D.entries p)) ⟨n, name⟩).Tree := by
  have hpn : p ≠ n := by
    rintro rfl
    exact absurd (hp.1.symm.trans hn) (by decide)
  have hlive : ¬D.Live n := fun hl => absurd (hl.1.symm.trans hn) (by decide)
  have hput : (D.put n type []).Tree :=
    h.put hb hlive (h.gone n hb.1 hn) (fun _ => rfl) fun hd => absurd hd hdir
  have := hput.link ((put_live hlive p).mpr hp) (by rwa [put_type]) (by rwa [put_type]) hname
    (by rw [put_nlink]; decide)
  rw [put_entries_of_ne hpn, put_nlink] at this
  exact this

/-- A new directory gets its entries and its name. -/
theorem Tree.create_dir (h : D.Tree) (hp : D.Live p) (hb : 0 < n ∧ n < ninodes) (hn : D.type n = .free)
    (hname : name ≠ dot ∧ name ≠ dotDot) :
    ((((((D.put n .dir []).setNlink n 1).setNlink p (toShort (D.nlink p + 1))).enter n 0 ⟨n, dot⟩).enter n 1
      ⟨p, dotDot⟩).enter p (slot (D.entries p)) ⟨n, name⟩).Tree := by
  have hpn : p ≠ n := by
    rintro rfl
    exact absurd (hp.1.symm.trans hn) (by decide)
  have hp0 := (h.bound p (by rw [hp.1]; decide)).1
  have hlive : ¬D.Live n := fun hl => absurd (hl.1.symm.trans hn) (by decide)
  have hput : (D.put n .dir [⟨n, dot⟩, ⟨p, dotDot⟩]).Tree :=
    h.put hb hlive (h.gone n hb.1 hn) (fun hd => absurd rfl hd) fun _ => ⟨p, hp0, rfl⟩
  have hup : (D.put n .dir [⟨n, dot⟩, ⟨p, dotDot⟩]).up n = p := by
    rw [up, put_entries]
    rfl
  have hhang := hput.hang ((put_live hlive p).mpr hp) (put_type ..) (put_nlink ..) hpn.symm hup
    (by rw [rest, put_entries]; exact fun x hx => absurd hx List.not_mem_nil) hname
  rw [put_entries_of_ne hpn, put_nlink_of_ne hpn] at hhang
  have hentries : ((((D.put n .dir []).enter n 0 ⟨n, dot⟩).enter n 1 ⟨p, dotDot⟩).enter p
      (slot (D.entries p)) ⟨n, name⟩).entries = ((D.put n .dir [⟨n, dot⟩, ⟨p, dotDot⟩]).enter p
        (slot (D.entries p)) ⟨n, name⟩).entries := by
    have hplace : place (place [] 0 ⟨n, dot⟩) 1 ⟨p, dotDot⟩ = [⟨n, dot⟩, ⟨p, dotDot⟩] := rfl
    have hes : ∀ es, (D.put n .dir es).entries = update D.entries n es := fun _ => rfl
    simp only [enter, hes, update_self, update_of_ne hpn, update_idem, hplace]
  have hnlink : update (update (update D.nlink n 0) n 1) p (toShort (D.nlink p + 1)) =
      update (update (update D.nlink n 0) p (toShort (D.nlink p + 1))) n 1 := update_comm hpn.symm ..
  have heq : ∀ (l l' : Nat → Int) (es es' : Nat → List Dirent), l = l' → es = es' →
      (⟨update D.type n .dir, l', es'⟩ : Disk).Tree → (⟨update D.type n .dir, l, es⟩ : Disk).Tree := by
    rintro l l' es es' rfl rfl ht
    exact ht
  exact heq _ _ _ _ hnlink hentries hhang

end Xv6.Files.Disk
