import AdvancedXv6.Files.Balance

/-! What has happened to the inodes, and what types they have since. -/

namespace Xv6.Files
open Function Effect Run

variable {v : Version} {H G L : List Nat} {k t u : Kernel} {i n : Nat} {e : Event} {es : List Event}
  {img : Image}

def Kernel.types (k : Kernel) : Nat → Kind := fun n => (k.dinode n).type

section Story
variable {P : (Nat → Kind) → List Note → Prop}

theorem Kernel.types_updated (h : Inv v H G L k) (hi : i ∈ L) {f : Dinode → Dinode}
    (htype : ∀ d, (f d).type = d.type) : (k.updated i f).types = k.types := by
  obtain ⟨hlt, hvalid, hpos⟩ := h.lock i hi
  obtain ⟨hct, -, -⟩ := h.cached i hlt hpos hvalid
  funext n
  simp only [Kernel.types, Kernel.updated, update_apply]
  split
  · rename_i hn
    rw [Dinode.pack, htype, hct, hn]
  · rfl

theorem Kernel.types_entered (h : Inv v H G L k) (hi : i ∈ L) {e : Dirent} :
    (k.entered i n e).types = k.types := by
  have hu := Kernel.types_updated h hi (f := id) fun _ => rfl
  rw [Kernel.entered]
  dsimp only
  split
  · rfl
  · exact hu

theorem Kernel.notes_entered {e : Dirent} : (k.entered i n e).notes = k.notes := by
  rw [Kernel.entered]
  dsimp only
  split <;> rfl

theorem Kernel.types_allocated {type : Kind} : (k.allocated n type).types = update k.types n type := by
  funext m
  simp only [Kernel.types, Kernel.allocated, update_apply]
  split <;> rfl

theorem Kernel.story_dropped (hfree : ∀ τ ns n, P τ ns → P (update τ n .free) (.freed n :: ns))
    (h : P k.types k.notes) (i : Nat) : P (k.dropped i).types (k.dropped i).notes := by
  by_cases hun : k.Unused i
  · have ht : (k.dropped i).types = update k.types (k.inode i).inum .free := by
      funext n
      simp only [Kernel.types, Kernel.dropped, Kernel.released, if_pos hun, update_apply]
      split <;> rfl
    have hn : (k.dropped i).notes = .freed (k.inode i).inum :: k.notes := by
      simp only [Kernel.dropped, Kernel.released, if_pos hun]
    rw [ht, hn]
    exact hfree _ _ _ h
  · have ht : (k.dropped i).types = k.types := by
      funext n
      simp only [Kernel.types, Kernel.dropped, Kernel.released, if_neg hun, Kernel.setInode]
    have hn : (k.dropped i).notes = k.notes := by
      simp only [Kernel.dropped, Kernel.released, if_neg hun, Kernel.setInode]
    rw [ht, hn]
    exact h

/-- What the types and the notes keep when inodes are freed and permissions are consulted. -/
theorem steady_story (hfree : ∀ τ ns n, P τ ns → P (update τ n .free) (.freed n :: ns))
    (hconsult : ∀ τ ns i, P τ ns → P τ (.consulted i :: ns)) :
    Steady v fun H G L k => Inv v H G L k ∧ P k.types k.notes where
  inv h := h.1
  same h hs := by
    refine ⟨hs.inv h.1, ?_⟩
    have ht : Kernel.types _ = Kernel.types _ := congrArg (fun d n => (d n).type) hs.dinode
    rw [ht, hs.notes]
    exact h.2
  table h _ hi := ⟨hi, h.2⟩
  consult i h := ⟨h.1.consult i, hconsult _ _ _ h.2⟩
  swap h := ⟨(steady_inv v).swap h.1, h.2⟩
  grab h hi hpos := ⟨h.1.grab hi hpos, h.2⟩
  recycle h hi hzero hnew := ⟨h.1.recycle hi hzero hnew, h.2⟩
  lock h hi hpos _ hfree := ⟨h.1.lockAt hi hpos hfree, h.2⟩
  unlock h hi hL := ⟨h.1.unlock hi hL, h.2⟩
  drop h hi := ⟨h.1.drop hi, Kernel.story_dropped hfree h.2 _⟩
  flush h hi := by
    refine ⟨h.1.updated hi (fun _ => rfl) fun _ => rfl, ?_⟩
    rw [Kernel.types_updated h.1 hi (f := id) fun _ => rfl]
    exact h.2

/-- What they also keep when inodes are taken. -/
theorem stable_story (hfree : ∀ τ ns n, P τ ns → P (update τ n .free) (.freed n :: ns))
    (hconsult : ∀ τ ns i, P τ ns → P τ (.consulted i :: ns))
    (halloc : ∀ τ ns n type, τ n = .free → type ≠ .free → P τ ns → P (update τ n type) (.created n :: ns)) :
    Stable v fun H G L k => Inv v H G L k ∧ P k.types k.notes where
  toSteady := steady_story hfree hconsult
  update h hi htype hperm := by
    refine ⟨h.1.updated hi htype hperm, ?_⟩
    rw [Kernel.types_updated h.1 hi htype]
    exact h.2
  enter n e h hdp := by
    refine ⟨h.1.enter hdp n e, ?_⟩
    rw [Kernel.types_entered h.1 hdp, Kernel.notes_entered]
    exact h.2
  alloc h hn htype := by
    refine ⟨h.1.alloc hn _, ?_⟩
    rw [Kernel.types_allocated]
    exact halloc _ _ _ _ hn htype h.2

theorem steps_story (hfree : ∀ τ ns n, P τ ns → P (update τ n .free) (.freed n :: ns))
    (hconsult : ∀ τ ns i, P τ ns → P τ (.consulted i :: ns))
    (halloc : ∀ τ ns n type, τ n = .free → type ≠ .free → P τ ns → P (update τ n type) (.created n :: ns))
    (hchmod : ∀ τ ns n m, τ n ≠ .free → P τ ns → P τ (.chmod n m :: ns))
    (h : Inv v H [] [] k) (hP : P k.types k.notes) (ht : k.step e = some t) : P t.types t.notes := by
  have hkeep : ∀ {H G L k i} (mode : Nat), Inv v H G L k ∧ P k.types k.notes → i ∈ L →
      Inv v H G L (k.permitted i mode) ∧ P (k.permitted i mode).types (k.permitted i mode).notes := by
    intro H G L k i mode h hi
    obtain ⟨hlt, hvalid, hpos⟩ := h.1.lock i hi
    obtain ⟨hct, -, hcf⟩ := h.1.cached i hlt hpos hvalid
    refine ⟨h.1.chmod hi mode, ?_⟩
    have hty := Kernel.types_updated h.1 hi (f := fun d => { d with perm := (mode ^^^ 7) &&& 7 }) fun _ => rfl
    have := hchmod _ _ _ mode (hct ▸ hcf) h.2
    rw [← hty] at this
    exact this
  obtain ⟨ht, -⟩ | ⟨⟨i, ht⟩, -⟩ := step_stable (stable_story hfree hconsult halloc) hkeep ⟨h, hP⟩ ht
  · exact ht.2
  · exact ht.2

end Story

/-! ### What the notes tell -/

/-- Between two beginnings of an inode it has been freed, and one that has been given a mode is there
until it is freed. -/
def Told (τ : Nat → Kind) (ns : List Note) : Prop :=
  ∀ n new x old, ns = new ++ x :: old → (x = .created n ∨ ∃ m, x = .chmod n m) → .freed n ∉ new →
    .created n ∉ new ∧ τ n ≠ .free

/-- A note that begins or changes nothing of `n`, or the first for `n`. -/
theorem Told.cons {τ τ' : Nat → Kind} {ns : List Note} {y : Note} (h : Told τ ns)
    (hy : ∀ n, y = .created n → τ n = .free ∧ τ' n ≠ .free) (hm : ∀ n m, y = .chmod n m → τ' n ≠ .free)
    (hτ : ∀ n, y ≠ .freed n → τ n ≠ .free → τ' n ≠ .free) : Told τ' (y :: ns) := by
  intro n new x old hns hx hfreed
  cases new with
  | nil =>
    obtain ⟨rfl, rfl⟩ := List.cons.inj hns
    refine ⟨List.not_mem_nil, ?_⟩
    rcases hx with hx | ⟨m, hx⟩
    · exact (hy n hx).2
    · exact hm n m hx
  | cons z new =>
    obtain ⟨rfl, rfl⟩ := List.cons.inj hns
    rw [List.mem_cons, not_or] at hfreed
    obtain ⟨hnew, hfree⟩ := h n new x old rfl hx hfreed.2
    refine ⟨fun hmem => ?_, hτ n (Ne.symm hfreed.1) hfree⟩
    rcases List.mem_cons.mp hmem with hz | hmem
    · exact hfree (hy n hz.symm).1
    · exact hnew hmem

theorem told_boot (img : Image) (v : Version) : Told (img.boot v).types (img.boot v).notes := by
  intro n new x old hns
  exact absurd hns (by simp [Image.boot])

theorem told_step (h : Inv v H [] [] k) (hP : Told k.types k.notes) (ht : k.step e = some t) :
    Told t.types t.notes := by
  refine steps_story (fun τ ns n h => ?_) (fun τ ns i h => ?_) (fun τ ns n type hn htype h => ?_)
    (fun τ ns n m hn h => ?_) h hP ht
  · refine h.cons (fun m hm => absurd hm (by simp)) (fun m _ hm => absurd hm (by simp)) fun m hm hfree => ?_
    have hne : m ≠ n := fun hmn => hm (congrArg Note.freed hmn.symm)
    rwa [update_of_ne hne]
  · exact h.cons (fun m hm => absurd hm (by simp)) (fun m _ hm => absurd hm (by simp)) fun m _ hfree => hfree
  · refine h.cons (fun m hm => ?_) (fun m _ hm => absurd hm (by simp)) fun m _ hfree => ?_
    · obtain rfl := Note.created.inj hm
      exact ⟨hn, by rwa [update_self]⟩
    · have hne : m ≠ n := fun hmn => hfree (hmn ▸ hn)
      rwa [update_of_ne hne]
  · refine h.cons (fun l hl => absurd hl (by simp)) (fun l _ hl => ?_) fun l _ hfree => hfree
    obtain ⟨rfl, -⟩ := Note.chmod.inj hl
    exact hn

theorem told_reaches (h : Reaches Kernel.step (img.boot v) k) : Told k.types k.notes := by
  have := Reaches.invariant (I := fun k => (∃ H, Inv v H [] [] k) ∧ Told k.types k.notes) h
    (fun s e t hs ht => ?_) ⟨⟨[], inv_boot img v⟩, told_boot img v⟩
  · exact this.2
  · obtain ⟨⟨H, hs⟩, hP⟩ := hs
    exact ⟨step_exists_inv hs ht, told_step hs hP ht⟩

/-- What has been noted since, and that the inodes that are new are among it. -/
def Since (τ₀ : Nat → Kind) (b : List Note) (τ : Nat → Kind) (ns : List Note) : Prop :=
  ∃ new, ns = new ++ b ∧ ∀ n, τ₀ n = .free → τ n ≠ .free → .created n ∈ new

theorem Since.cons {τ₀ τ τ' : Nat → Kind} {b ns : List Note} (h : Since τ₀ b τ ns) (y : Note)
    (hτ : ∀ n, τ' n ≠ .free → τ n ≠ .free ∨ y = .created n) : Since τ₀ b τ' (y :: ns) := by
  obtain ⟨new, rfl, hnew⟩ := h
  refine ⟨y :: new, rfl, fun n hn hn' => ?_⟩
  rcases hτ n hn' with hfree | rfl
  · exact List.mem_cons_of_mem _ (hnew n hn hfree)
  · exact List.mem_cons_self

theorem since_step {τ₀ : Nat → Kind} {b : List Note} (h : Inv v H [] [] k) (hP : Since τ₀ b k.types k.notes)
    (ht : k.step e = some t) : Since τ₀ b t.types t.notes := by
  refine steps_story (fun τ ns n h => ?_) (fun τ ns i h => ?_) (fun τ ns n type hn htype h => ?_)
    (fun τ ns n m hn h => ?_) h hP ht
  · refine h.cons _ fun m hm => .inl ?_
    by_cases hmn : m = n
    · rw [hmn, update_self] at hm
      exact absurd rfl hm
    · rwa [update_of_ne hmn] at hm
  · exact h.cons _ fun m hm => .inl hm
  · refine h.cons _ fun m hm => ?_
    by_cases hmn : m = n
    · exact .inr (hmn ▸ rfl)
    · rw [update_of_ne hmn] at hm
      exact .inl hm
  · exact h.cons _ fun m hm => .inl hm

theorem since_exec (h : Inv v H [] [] k) (ht : Run.exec Kernel.step k es = some t) :
    Since k.types k.notes t.types t.notes := by
  have := Run.invariant (I := fun s => (∃ H, Inv v H [] [] s) ∧ Since k.types k.notes s.types s.notes)
    (fun s e t hs ht => ?_) ⟨⟨H, h⟩, [], rfl, fun n hn hn' => absurd hn hn'⟩ ht
  · exact this.2
  · obtain ⟨⟨H, hs⟩, hP⟩ := hs
    exact ⟨step_exists_inv hs ht, since_step hs hP ht⟩

end Xv6.Files
