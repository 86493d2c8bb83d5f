import AdvancedXv6.Swap.Entry

/-! What an allocation may change behind the back of the process that asks for it: pages move
between memory and the swap area, but no page changes its contents or its permissions. -/

namespace Xv6.Swap
open Function Ownership

/-- The page numbers of the whole address space. -/
def tablePages : Nat := 1048576

/-- A user page as its process sees it. -/
structure UserPage where
  words : Fin pageWords → Word
  perm : Word

namespace Kernel
variable (k : Kernel)

def contents : Res → Fin pageWords → Word
  | .frame f, i => k.mem f i
  | .slot n, i => k.disk (swapBlock n (i / blockWords)) (i % blockWords)

def page (d pg : Nat) : Option UserPage :=
  (k.entry d pg).bind fun e => (names e).map fun a => ⟨k.contents a, permOf e⟩

/-- The page is in memory. -/
def In (d pg : Nat) : Prop := ∃ e, k.entry d pg = some e ∧ Present e

/-- The two entries translate alike. -/
def Agree (e e' : Word) : Prop := Present e' ∧ frameOf e' = frameOf e ∧ permOf e' = permOf e

/-- The MMU may still be using a translation that the loaded table does not contain. -/
def Stale (pg : Nat) : Prop :=
  ∃ e ∈ k.tlb pg, ¬∃ e', k.entry k.cr3 pg = some e' ∧ Agree e e'

/-- The events after the last reload of `%cr3`. -/
def sinceReload : List Event := k.trail.takeWhile (· ≠ .reload)

def Pending (pg : Nat) : Prop := .evict k.cr3 (pg * pgSize) ∈ k.sinceReload

/-- Stale for another reason than an eviction since the last reload. -/
def Loose (pg : Nat) : Prop := k.Stale pg ∧ ¬k.Pending pg

end Kernel

/-- What may happen to an entry of a page that stays as it is. -/
structure Evolves (e e' : Word) : Prop where
  perm : permOf e' = permOf e
  absent : ¬Present e → e' = e
  frame : Present e' → frameOf e' = frameOf e
  out : Present e → Present e' ∨ Swapped e'

theorem Evolves.refl (e : Word) : Evolves e e := ⟨rfl, fun _ => rfl, fun _ => rfl, .inl⟩

theorem Evolves.present {e e' : Word} (h : Evolves e e') (hp : Present e') : Present e := by
  by_contra hn
  exact hn (h.absent hn ▸ hp)

theorem Evolves.trans {e₁ e₂ e₃ : Word} (h : Evolves e₁ e₂) (h' : Evolves e₂ e₃) :
    Evolves e₁ e₃ where
  perm := h'.perm.trans h.perm
  absent hn := by rw [h'.absent fun hp => hn (h.present hp), h.absent hn]
  frame hp := (h'.frame hp).trans (h.frame (h'.present hp))
  out hp := by
    by_cases h₂ : Present e₂
    · exact h'.out h₂
    · rw [h'.absent h₂]
      exact h.out hp

inductive Grows : Option Word → Option Word → Prop
  | none : Grows none none
  /-- a new page table, filled with zeros -/
  | table : Grows none (some 0)
  | some {e e' : Word} (h : Evolves e e') : Grows (some e) (some e')

theorem Grows.refl (o : Option Word) : Grows o o := by
  cases o with
  | none => exact .none
  | some e => exact .some (.refl e)

theorem Grows.trans {o₁ o₂ o₃ : Option Word} (h : Grows o₁ o₂) (h' : Grows o₂ o₃) :
    Grows o₁ o₃ := by
  cases h with
  | none => exact h'
  | table =>
    cases h' with
    | some h' => rw [h'.absent (by decide)]; exact .table
  | some h =>
    cases h' with
    | some h' => exact .some (h.trans h')

/-- The entries of a table that no process has yet. -/
def Appears (o o' : Option Word) : Prop := o' = o ∨ (o = none ∧ o' = some 0)

theorem Appears.trans {o₁ o₂ o₃ : Option Word} (h : Appears o₁ o₂) (h' : Appears o₂ o₃) :
    Appears o₁ o₃ := by
  rcases h with rfl | ⟨rfl, rfl⟩
  · exact h'
  · rcases h' with rfl | ⟨h, _⟩
    · exact .inr ⟨rfl, rfl⟩
    · cases h

theorem Appears.grows {o o' : Option Word} (h : Appears o o') : Grows o o' := by
  rcases h with rfl | ⟨rfl, rfl⟩
  · exact .refl _
  · exact .table

/-! ### What stays the same -/

/-- Apart from memory, disk and allocator the states differ in the `rss` fields only. -/
structure Calm (k k' : Kernel) : Prop where
  proc : ∀ i, ∃ r, k'.proc i = { k.proc i with rss := r }
  cur : k'.cur = k.cur
  cr3 : k'.cr3 = k.cr3
  initproc : k'.initproc = k.initproc
  nextpid : k'.nextpid = k.nextpid
  pipes : k'.pipes = k.pipes
  kpgdir : k'.kpgdir = k.kpgdir
  useLock : k'.useLock = k.useLock

/-- Nothing that is referred to changes. -/
structure Still (k k' : Kernel) (H : Held) : Prop where
  calm : Calm k k'
  frames : ∀ r f, r ≠ .free → k.Refers H r (.frame f) → k'.mem f = k.mem f
  slots : ∀ r n, r ≠ .free → k.Refers H r (.slot n) →
    k'.contents (.slot n) = k.contents (.slot n) ∧
    (k'.swapSlots n).pagePerm = (k.swapSlots n).pagePerm

/-- Up to the pages in `X`, everything that the processes and the local variables see is as it
was. -/
structure Quiet (X : Nat → Nat → Prop) (k k' : Kernel) (H : Held) : Prop where
  calm : Calm k k'
  frames : ∀ f, .frame f ∈ H.res → k'.mem f = k.mem f
  slots : ∀ n, .slot n ∈ H.res → k'.contents (.slot n) = k.contents (.slot n) ∧
    (k'.swapSlots n).pagePerm = (k.swapSlots n).pagePerm
  pde : ∀ d i, k.Live H d → i < nPdEntries →
    Present (k.mem d i) ∨ (∀ pg, X d pg → pg / 1024 ≠ i) → k'.mem d i = k.mem d i
  entry : ∀ d pg, k.Live H d → pg < tablePages → ¬X d pg → Grows (k.entry d pg) (k'.entry d pg)
  built : ∀ d pg, d ∈ H.dirs → pg < tablePages → ¬X d pg →
    Appears (k.entry d pg) (k'.entry d pg)
  page : ∀ d pg, k.Live H d → pg < userPages → ¬X d pg → k'.page d pg = k.page d pg
  loose : k.Live H k.cr3 → ∀ pg, pg < tablePages → ¬X k.cr3 pg → k'.Loose pg → k.Loose pg
  trail : ∃ evs, k'.trail = evs ++ k.trail ∧ ∀ d pg, k.Live H d → pg < userPages → ¬X d pg →
    k.In d pg → k'.In d pg ∨ .evict d (pg * pgSize) ∈ evs

/-- No page. -/
def noPage (_ _ : Nat) : Prop := False

variable {im : Image} {k k' k₁ k₂ k₃ : Kernel} {H H' : Held} {X Y : Nat → Nat → Prop}
  {d pg f n i : Nat} {a : Res} {e e' w : Word} {q : PtePtr} {r : Ref} {evs : List Event}

theorem tablePages_div : pg < tablePages ↔ pg / 1024 < nPdEntries := by
  rw [tablePages, nPdEntries]
  omega

theorem lt_tablePages (h : pg < userPages) : pg < tablePages := by
  rw [userPages] at h
  rw [tablePages]
  omega

theorem pending_append (htrail : k'.trail = evs ++ k.trail) (hno : .reload ∉ evs)
    (hcr3 : k'.cr3 = k.cr3) :
    k'.Pending pg ↔ .evict k.cr3 (pg * pgSize) ∈ evs ∨ k.Pending pg := by
  have hall : ∀ x ∈ evs, decide (x ≠ .reload) = true := by
    intro x hx
    simp only [ne_eq, decide_eq_true_eq]
    rintro rfl
    exact hno hx
  rw [Kernel.Pending, Kernel.sinceReload, htrail, List.takeWhile_append_of_pos hall, hcr3,
    List.mem_append]
  exact Iff.rfl

namespace Calm

theorem of_eq (hproc : k'.proc = k.proc) (hcur : k'.cur = k.cur) (hcr3 : k'.cr3 = k.cr3)
    (hinit : k'.initproc = k.initproc) (hnext : k'.nextpid = k.nextpid)
    (hpipes : k'.pipes = k.pipes) (hkpgdir : k'.kpgdir = k.kpgdir)
    (hlock : k'.useLock = k.useLock) : Calm k k' :=
  ⟨fun i => ⟨(k.proc i).rss, by rw [hproc]⟩, hcur, hcr3, hinit, hnext, hpipes, hkpgdir, hlock⟩

theorem refl (k : Kernel) : Calm k k := of_eq rfl rfl rfl rfl rfl rfl rfl rfl

theorem trans (h : Calm k₁ k₂) (h' : Calm k₂ k₃) : Calm k₁ k₃ where
  proc i := by
    obtain ⟨r, hr⟩ := h.proc i
    obtain ⟨r', hr'⟩ := h'.proc i
    exact ⟨r', by rw [hr', hr]⟩
  cur := h'.cur.trans h.cur
  cr3 := h'.cr3.trans h.cr3
  initproc := h'.initproc.trans h.initproc
  nextpid := h'.nextpid.trans h.nextpid
  pipes := h'.pipes.trans h.pipes
  kpgdir := h'.kpgdir.trans h.kpgdir
  useLock := h'.useLock.trans h.useLock

variable (h : Calm k k')
include h

theorem state (i : Nat) : (k'.proc i).state = (k.proc i).state := by
  obtain ⟨r, hr⟩ := h.proc i
  rw [hr]

theorem pgdir (i : Nat) : (k'.proc i).pgdir = (k.proc i).pgdir := by
  obtain ⟨r, hr⟩ := h.proc i
  rw [hr]

theorem kstack (i : Nat) : (k'.proc i).kstack = (k.proc i).kstack := by
  obtain ⟨r, hr⟩ := h.proc i
  rw [hr]

theorem sz (i : Nat) : (k'.proc i).sz = (k.proc i).sz := by
  obtain ⟨r, hr⟩ := h.proc i
  rw [hr]

theorem pid (i : Nat) : (k'.proc i).pid = (k.proc i).pid := by
  obtain ⟨r, hr⟩ := h.proc i
  rw [hr]

theorem parent (i : Nat) : (k'.proc i).parent = (k.proc i).parent := by
  obtain ⟨r, hr⟩ := h.proc i
  rw [hr]

theorem killed (i : Nat) : (k'.proc i).killed = (k.proc i).killed := by
  obtain ⟨r, hr⟩ := h.proc i
  rw [hr]

theorem dir (x : Holder) : k'.Dir H x d ↔ k.Dir H x d := by
  cases x with
  | proc i => simp only [Kernel.Dir, h.state, h.pgdir]
  | kernel => simp only [Kernel.Dir, h.kpgdir]
  | held => rfl

theorem live : k'.Live H d ↔ k.Live H d := exists_congr fun x => h.dir x

end Calm

/-! ### Nothing changes -/

namespace Still

theorem sameTables (h : Still k k' H) : SameTables k k' H where
  vm i := by rw [h.calm.state]
  pgdir := h.calm.pgdir
  kstack := h.calm.kstack
  kpgdir := h.calm.kpgdir
  pipes := h.calm.pipes
  mem t := by
    rintro (⟨x, hx⟩ | ⟨d, i, hi⟩)
    · exact h.frames (.dir x) t (by simp) ⟨t, hx, rfl⟩
    · exact h.frames (.tab d i) t (by simp) hi

theorem refl (k : Kernel) (H : Held) : Still k k H :=
  ⟨.refl k, fun _ _ _ _ => rfl, fun _ _ _ _ => ⟨rfl, rfl⟩⟩

theorem trans (h : Still k₁ k₂ H) (h' : Still k₂ k₃ H) : Still k₁ k₃ H where
  calm := h.calm.trans h'.calm
  frames r f hr hf := (h'.frames r f hr ((h.sameTables.refers hr _).mpr hf)).trans (h.frames r f hr hf)
  slots r n hr hn := by
    have h₁ := h.slots r n hr hn
    have h₂ := h'.slots r n hr ((h.sameTables.refers hr _).mpr hn)
    exact ⟨h₂.1.trans h₁.1, h₂.2.trans h₁.2⟩

theorem entry (h : Still k k' H) (hd : k.Live H d) (hpg : pg < tablePages) :
    k'.entry d pg = k.entry d pg := h.sameTables.entry hd (tablePages_div.mp hpg)

theorem contents (h : Still k k' H) (hr : r ≠ .free) (ha : k.Refers H r a) :
    k'.contents a = k.contents a := by
  cases a with
  | frame f =>
    funext i
    rw [Kernel.contents, Kernel.contents, h.frames r f hr ha]
  | slot n => exact (h.slots r n hr ha).1

theorem page (h : Still k k' H) (hd : k.Live H d) (hpg : pg < userPages) :
    k'.page d pg = k.page d pg := by
  rw [Kernel.page, Kernel.page, h.entry hd (lt_tablePages hpg)]
  cases he : k.entry d pg with
  | none => rfl
  | some e =>
    cases ha : names e with
    | none => simp [ha]
    | some a =>
      have := h.contents (r := .user d pg) (by simp) ⟨hd, hpg, e, he, ha⟩
      simp [ha, this]

/-- Translations in use are as before, or read anew from the table. -/
theorem quiet (h : Still k k' H)
    (htlb : (k'.tlb = k.tlb ∧ ∃ evs, k'.trail = evs ++ k.trail ∧ .reload ∉ evs) ∨
      ((∀ pg, pg < tablePages → ¬k'.Stale pg) ∧ ∃ evs, k'.trail = evs ++ k.trail)) :
    Quiet noPage k k' H where
  calm := h.calm
  frames f hf := h.frames .held f (by simp) hf
  slots n hn := h.slots .held n (by simp) hn
  pde d i hd hi _ := by rw [h.sameTables.mem d (.inl hd)]
  entry d pg hd hpg _ := by
    rw [h.entry hd hpg]
    exact .refl _
  built d pg hd hpg _ := .inl (h.entry ⟨.held, hd⟩ hpg)
  page d pg hd hpg _ := h.page hd hpg
  loose hcr3 pg hpg _ hl := by
    rcases htlb with ⟨ht, evs, hevs, hno⟩ | ⟨hfresh, _⟩
    · have he : k'.entry k'.cr3 pg = k.entry k.cr3 pg := by rw [h.calm.cr3, h.entry hcr3 hpg]
      refine ⟨?_, fun hp => hl.2 ((pending_append hevs hno h.calm.cr3).mpr (.inr hp))⟩
      have := hl.1
      rw [Kernel.Stale, he, ht] at this
      exact this
    · exact absurd hl.1 (hfresh pg hpg)
  trail := by
    have : ∃ evs, k'.trail = evs ++ k.trail := by
      rcases htlb with ⟨_, evs, hevs, _⟩ | ⟨_, evs, hevs⟩ <;> exact ⟨evs, hevs⟩
    obtain ⟨evs, hevs⟩ := this
    refine ⟨evs, hevs, fun d pg hd hpg _ hin => .inl ?_⟩
    rw [Kernel.In, h.entry hd (lt_tablePages hpg)]
    exact hin

end Still

/-! ### Quiet steps compose -/

namespace Quiet

theorem refl (k : Kernel) (H : Held) : Quiet noPage k k H :=
  (Still.refl k H).quiet (.inl ⟨rfl, [], rfl, by simp⟩)

theorem trans (h : Quiet X k₁ k₂ H) (h' : Quiet X k₂ k₃ H) : Quiet X k₁ k₃ H where
  calm := h.calm.trans h'.calm
  frames f hf := (h'.frames f hf).trans (h.frames f hf)
  slots n hn := ⟨(h'.slots n hn).1.trans (h.slots n hn).1, (h'.slots n hn).2.trans (h.slots n hn).2⟩
  pde d i hd hi hp := by
    have h₁ := h.pde d i hd hi hp
    rw [h'.pde d i (h.calm.live.mpr hd) hi (hp.imp_left fun hp => h₁ ▸ hp), h₁]
  entry d pg hd hpg hx := (h.entry d pg hd hpg hx).trans (h'.entry d pg (h.calm.live.mpr hd) hpg hx)
  built d pg hd hpg hx := (h.built d pg hd hpg hx).trans (h'.built d pg hd hpg hx)
  page d pg hd hpg hx := (h'.page d pg (h.calm.live.mpr hd) hpg hx).trans (h.page d pg hd hpg hx)
  loose hcr3 pg hpg hx hl := by
    refine h.loose hcr3 pg hpg hx (h'.loose ?_ pg hpg ?_ hl)
    · rw [h.calm.cr3]
      exact h.calm.live.mpr hcr3
    · rw [h.calm.cr3]
      exact hx
  trail := by
    obtain ⟨evs, he, hin⟩ := h.trail
    obtain ⟨evs', he', hin'⟩ := h'.trail
    refine ⟨evs' ++ evs, by rw [he', he, List.append_assoc], fun d pg hd hpg hx hk => ?_⟩
    rcases hin d pg hd hpg hx hk with h₂ | h₂
    · rcases hin' d pg (h.calm.live.mpr hd) hpg hx h₂ with h₃ | h₃
      · exact .inl h₃
      · exact .inr (List.mem_append_left _ h₃)
    · exact .inr (List.mem_append_right _ h₂)

/-- Fewer local variables, more pages left out. -/
theorem mono (h : Quiet X k k' H) (hX : ∀ d pg, X d pg → Y d pg) (hdirs : H'.dirs ⊆ H.dirs)
    (hres : H'.res ⊆ H.res) (hgone : ∀ i, H.gone = some i → H'.gone = some i) :
    Quiet Y k k' H' := by
  have hlive {d : Nat} (hd : k.Live H' d) : k.Live H d := by
    obtain ⟨x, hx⟩ := hd
    refine ⟨x, ?_⟩
    cases x with
    | proc i => exact ⟨hx.1, hx.2.1, fun hg => hx.2.2.1 (hgone i hg), hx.2.2.2⟩
    | kernel => exact hx
    | held => exact hdirs hx
  obtain ⟨evs, he, hin⟩ := h.trail
  exact {
    calm := h.calm
    frames := fun f hf => h.frames f (hres hf)
    slots := fun n hn => h.slots n (hres hn)
    pde := fun d i hd hi hp =>
      h.pde d i (hlive hd) hi (hp.imp_right fun hn pg hx => hn pg (hX d pg hx))
    entry := fun d pg hd hpg hx => h.entry d pg (hlive hd) hpg fun hx' => hx (hX d pg hx')
    built := fun d pg hd hpg hx => h.built d pg (hdirs hd) hpg fun hx' => hx (hX d pg hx')
    page := fun d pg hd hpg hx => h.page d pg (hlive hd) hpg fun hx' => hx (hX d pg hx')
    loose := fun hcr3 pg hpg hx => h.loose (hlive hcr3) pg hpg fun hx' => hx (hX _ pg hx')
    trail := ⟨evs, he, fun d pg hd hpg hx => hin d pg (hlive hd) hpg fun hx' => hx (hX d pg hx')⟩ }

theorem unhold (h : Quiet X k k' (H.hold a)) : Quiet X k k' H :=
  h.mono (fun _ _ hx => hx) (fun _ hd => hd) (fun _ ha => List.mem_cons_of_mem _ ha) fun _ hg => hg

theorem unbuild (h : Quiet X k k' (H.build d)) : Quiet X k k' H :=
  h.mono (fun _ _ hx => hx) (fun _ hd => List.mem_cons_of_mem _ hd) (fun _ ha => ha) fun _ hg => hg

theorem weaken (h : Quiet noPage k k' H) : Quiet X k k' H :=
  h.mono (fun _ _ hx => hx.elim) (fun _ hd => hd) (fun _ ha => ha) fun _ hg => hg

/-- What happens to directories that do not exist is of no interest. -/
theorem forget (h : Quiet X k k' H) (hX : ∀ d pg, k.Live H d → X d pg → Y d pg) :
    Quiet Y k k' H where
  calm := h.calm
  frames := h.frames
  slots := h.slots
  pde d i hd hi hp := h.pde d i hd hi (hp.imp_right fun hn pg hx => hn pg (hX d pg hd hx))
  entry d pg hd hpg hx := h.entry d pg hd hpg fun hx' => hx (hX d pg hd hx')
  built d pg hd hpg hx := h.built d pg hd hpg fun hx' => hx (hX d pg ⟨.held, hd⟩ hx')
  page d pg hd hpg hx := h.page d pg hd hpg fun hx' => hx (hX d pg hd hx')
  loose hcr3 pg hpg hx := h.loose hcr3 pg hpg fun hx' => hx (hX _ pg hcr3 hx')
  trail := by
    obtain ⟨evs, he, hin⟩ := h.trail
    exact ⟨evs, he, fun d pg hd hpg hx => hin d pg hd hpg fun hx' => hx (hX d pg hd hx')⟩

/-- A directory entry that is in use stays where it is. -/
theorem walk {va : Nat} (h : Quiet X k k' H) (hd : k.Live H d) (hq : k.walk d va = some q) :
    k'.walk d va = some q := by
  obtain ⟨hp, rfl⟩ := Kernel.walk_some hq
  rw [Kernel.walk, h.pde d _ hd (pdx_lt va) (.inl hp), if_pos hp]

end Quiet

end Xv6.Swap
