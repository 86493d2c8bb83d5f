import AdvancedXv6.Files.Exact

/-! Where the walk along a path meets an inode that has been freed. -/

namespace Xv6.Files
open Function Effect Run Finset

variable {D : Disk} {H G L : List Nat} {k t : Kernel} {i dp n p : Nat} {np : Bool} {e : Dirent} {img : Image}

/-- An inode that is locked on the way, or the one to lock at the end, is free. -/
def Disk.Meets (D : Disk) (nameiparent : Bool) : Nat → List Name → Prop
  | n, [] => nameiparent = false ∧ D.type n = .free
  | n, name :: rest => D.type n = .free ∨
    (D.type n = .dir ∧ ¬(nameiparent = true ∧ rest = []) ∧ ∃ e,
      ((D.entries n).find? fun e => decide (e.inum ≠ 0 ∧ e.name = name)) = some e ∧ D.Meets nameiparent e.inum rest)

def Kernel.Meets (k : Kernel) (path : Name) (nameiparent : Bool) : Prop :=
  k.disk.Meets nameiparent (k.start path) (elements path.length path)

namespace Disk

/-- The inode has names, if it is not the root. -/
def Sound (D : Disk) (n : Nat) : Prop := D.type n ≠ .free ∧ (D.type n = .dir → D.Live n)

theorem Live.sound (h : D.Live n) : D.Sound n := by
  refine ⟨?_, fun _ => h⟩
  rw [h.1]
  decide

end Disk

/-! ### The errors of the walk -/

/-- If the program stops with an error, the error is in `E`. -/
def Fails {α : Type} (m : M α) (k : Kernel) (E : Panic → Prop) : Prop := wp m k (fun _ _ => True) fun e _ => E e

namespace Fails
variable {α β : Type} {m : M α} {f : α → M β} {E : Panic → Prop} {Q : α → Kernel → Prop}

theorem bind (hm : Fails m k E) (hQ : Ends m k Q) (hf : ∀ a t, Q a t → Fails (f a) t E) : Fails (m >>= f) k E :=
  (wp_bind m f).mpr (wp_mono (wp_and hm hQ) (fun a t h => hf a t h.2) fun _ _ h => h.1)

theorem pure (a : α) : Fails (Pure.pure a) k E := (wp_pure a).mpr trivial

theorem throw {e : Panic} (h : E e) : Fails (throw e : M α) k E := (wp_throw e).mpr h

theorem modify (g : Kernel → Kernel) : Fails (modify g) k E := (wp_modify g).mpr trivial

theorem ite {c : Prop} [Decidable c] {m' : M α} (h : c → Fails m k E) (h' : ¬c → Fails m' k E) :
    Fails (if c then m else m') k E := (wp_ite m m').mpr ⟨h, h'⟩

theorem get_bind {f : Kernel → M β} (h : Fails (f k) k E) : Fails (get >>= f) k E := (wp_bind _ f).mpr (wp_get.mpr h)

theorem mono {E' : Panic → Prop} (h : Fails m k E) (hE : ∀ e, E e → E' e) : Fails m k E' :=
  wp_mono h (fun _ _ _ => trivial) fun e _ he => hE e he

theorem error {e : Panic} (h : Fails m k E) (hm : m k = .error e t) : E e := wp_error h hm

end Fails

/-- There is no entry of the cache left, or no block on the disk. -/
def Panic.full (e : Panic) : Prop := e = .iget ∨ e = .balloc ∨ e = .logWrite

section Inode
variable {E : Panic → Prop}

end Inode

/-- The current directory, or the one that its entry `..` names, has links. -/
def Kernel.Kept (k : Kernel) : Prop :=
  k.disk.Live (k.inode k.proc.cwd).inum ∨ k.disk.Live (k.disk.up (k.inode k.proc.cwd).inum)

instance (k : Kernel) (path : Name) : Decidable (k.Orphans path) :=
  match h : k.leads path true with
  | none => .isFalse fun ho => by
    obtain ⟨n, name, hleads, -⟩ := ho
    cases h.symm.trans hleads
  | some (n, name) => decidable_of_iff (k.disk.nlink n = 0 ∧ name ≠ dot ∧ name ≠ dotDot)
    ⟨fun hn => ⟨n, name, h, hn⟩, fun ho => by
      obtain ⟨n', name', hleads, hn⟩ := ho
      obtain ⟨rfl, rfl⟩ := Prod.mk.inj (Option.some.inj (h.symm.trans hleads))
      exact hn⟩

end Xv6.Files
