import AdvancedXv6.Disk.Walk

/-! The names in directories: what `namecmp` compares, what `strncpy` stores, and which entry `dirlookup` finds. -/

namespace Xv6.Disk
open Function Effect Bytes Fs
variable {H K L : List Nat} {o : Nat} {s t u : Fs} {i j dp n k : Nat} {p q : Nat → UInt8} {name : Name}
  {x : List UInt8} {E : Panic → Fs → Prop}

/-! ### Bounded strings -/

/-- The string at a pointer, up to its NUL but no more than `n` bytes. -/
def upto : Nat → (Nat → UInt8) → List UInt8
  | 0, _ => []
  | n + 1, p => if p 0 = 0 then [] else p 0 :: upto n fun k => p (k + 1)

/-- What a directory keeps of a name. -/
def key (name : Name) : List UInt8 := upto dirSiz name.byte

theorem upto_congr (h : ∀ k, k < n → p k = q k) : upto n p = upto n q := by
  induction n generalizing p q with
  | zero => rfl
  | succ n ih =>
    rw [upto, upto, h 0 (Nat.succ_pos n), ih fun k hk => h (k + 1) (Nat.succ_lt_succ hk)]

theorem strncmp_eq_zero : strncmp p q n = 0 ↔ upto n p = upto n q := by
  induction n generalizing p q with
  | zero => exact iff_of_true rfl rfl
  | succ n ih =>
    rw [strncmp, upto, upto]
    by_cases hp : p 0 = 0
    · rw [if_neg fun hand => hand.1 hp, if_pos hp, hp]
      by_cases hq : q 0 = 0
      · rw [if_pos hq, hq]
        exact iff_of_true rfl rfl
      · have hpos : (q 0).toNat ≠ 0 := fun h0 => hq (UInt8.toNat_inj.mp h0)
        rw [if_neg hq]
        refine iff_of_false (fun hsub => hpos ?_) (List.cons_ne_nil _ _).symm
        have hzero : (0 : UInt8).toNat = 0 := rfl
        omega
    · by_cases hpq : p 0 = q 0
      · rw [if_pos ⟨hp, hpq⟩, ih, if_neg hp, if_neg fun hq => hp (hpq.trans hq), hpq, List.cons.injEq]
        exact (and_iff_right rfl).symm
      · have hne : (p 0).toNat ≠ (q 0).toNat := fun heq => hpq (UInt8.toNat_inj.mp heq)
        rw [if_neg fun hand => hpq hand.2, if_neg hp]
        refine iff_of_false (fun hsub => hne (by omega)) fun heq => ?_
        by_cases hq : q 0 = 0
        · rw [if_pos hq] at heq
          cases heq
        · rw [if_neg hq] at heq
          exact hpq (List.cons.inj heq).1

theorem upto_nul (h : p 0 = 0) : upto n p = [] := by
  cases n with
  | zero => rfl
  | succ n => rw [upto, if_pos h]

/-- The copy reads as the original. -/
theorem upto_strncpy : upto n (fun k => (strncpy p n).getD k 0) = upto n p := by
  induction n generalizing p with
  | zero => rfl
  | succ n ih =>
    rw [strncpy]
    by_cases hp : p 0 = 0
    · rw [if_pos hp, upto_nul hp]
      exact upto_nul rfl
    · rw [if_neg hp, upto, upto, if_neg hp]
      exact (if_neg hp).trans (congrArg (p 0 :: ·) ih)

/-! ### Entries -/

namespace Fs

/-- The name in an entry of a directory. -/
def title (s : Fs) (i k : Nat) : List UInt8 := upto dirSiz fun j => s.byte i (direntSize * k + 2 + j)

/-- How many entries the directory has, in use or not. -/
def entries (s : Fs) (i : Nat) : Nat := (s.node i).size / direntSize

def bears (s : Fs) (i : Nat) (x : List UInt8) (k : Nat) : Bool := decide (s.inum i k ≠ 0 ∧ s.title i k = x)

def vacant (s : Fs) (i k : Nat) : Bool := decide (s.inum i k = 0)

/-- The entry that `dirlookup` finds. -/
def entryOf (s : Fs) (i : Nat) (x : List UInt8) : Option Nat := (List.range (s.entries i)).find? (s.bears i x)

/-- The entry that `dirlink` writes. -/
def hole (s : Fs) (i : Nat) : Nat := ((List.range (s.entries i)).find? (s.vacant i)).getD (s.entries i)

/-- The entry is in use. -/
def Live (s : Fs) (i k : Nat) : Prop := k < s.entries i ∧ s.inum i k ≠ 0

/-- The inode has the same content. -/
structure Leaves (i : Nat) (s t : Fs) : Prop where
  type : (t.node i).type = (s.node i).type
  size : (t.node i).size = (s.node i).size
  byte : ∀ k, t.byte i k = s.byte i k

theorem Leaves.refl (i : Nat) (s : Fs) : Leaves i s s := ⟨rfl, rfl, fun _ => rfl⟩

theorem Leaves.trans (h : Leaves i s t) (h' : Leaves i t u) : Leaves i s u :=
  ⟨h'.type.trans h.type, h'.size.trans h.size, fun k => (h'.byte k).trans (h.byte k)⟩

theorem Leaves.entries (h : Leaves i s t) : t.entries i = s.entries i := by rw [Fs.entries, h.size]; rfl

theorem Leaves.inum (h : Leaves i s t) (k : Nat) : t.inum i k = s.inum i k := word_congr fun m _ _ => h.byte m

theorem Leaves.title (h : Leaves i s t) (k : Nat) : t.title i k = s.title i k := upto_congr fun _ _ => h.byte _

theorem Leaves.live (h : Leaves i s t) : t.Live i k ↔ s.Live i k := by rw [Live, h.entries, h.inum]; rfl

theorem Borrows.leaves {R : List Nat} (h : Borrows R s t) (hs : s.Sound) (ht : t.Sound) (hi : s.Alloc i) :
    Leaves i s t := by
  have hnode := h.node hs ht
  have hsame : Same s.Alloc s t := ⟨fun j _ => by rw [hnode], fun a _ => by rw [h.blk]⟩
  exact ⟨by rw [hnode], by rw [hnode], hs.exact.held.byte_same hsame hi⟩

end Fs

section Read
variable {de : Nat → UInt8} (hde : ∀ k, k < direntSize → de k = s.byte dp (direntSize * j + k))
include hde

theorem read_inum : word de 0 2 = s.inum dp j := word_window fun k hk => hde k (Nat.lt_trans hk (by decide))

theorem read_title : namecmp name.byte (fun k => de (k + 2)) = 0 ↔ s.title dp j = key name := by
  have htitle : upto dirSiz (fun k => de (k + 2)) = s.title dp j := by
    refine upto_congr fun k hk => (hde (k + 2) ?_).trans (congrArg (s.byte dp) (by omega))
    have hsum : dirSiz + 2 = direntSize := rfl
    omega
  rw [namecmp, strncmp_eq_zero, htitle]
  exact eq_comm

end Read

/-! ### Lookups -/

section Lookup
variable (h : s.Busy o L H) (hdp : dp ∈ L)
include h hdp

/-- An entry that is in the directory is read without any panic. -/
theorem wp_readDirent_in {Q : (Nat → UInt8) → Fs → Prop} {e : Panic} (hdir : (s.node dp).type = tDir) (hj : j < s.entries dp)
    (hQ : ∀ de, (∀ k, k < direntSize → de k = s.byte dp (direntSize * j + k)) → Q de s) :
    wp (readDirent dp (direntSize * j) e) s Q E := by
  have hv := h.valid hdp
  have hlen : direntSize = 16 := rfl
  have hin : direntSize * j + direntSize ≤ (s.ip dp).size := by
    rw [← node_eq hv]
    change j < (s.node dp).size / 16 at hj
    rw [hlen]
    omega
  have hcap : maxFile * bsize = 71680 := rfl
  have hmax := size_lt h hdp
  rw [node_eq hv] at hdir
  unfold readDirent
  rw [wp_bind]
  refine wp_readi_present hv (by decide) (by omega) (fun hdev => ?_) (fun hno => absurd (by omega) hno) fun hle hsum => ?_
  · rw [hdir] at hdev
    cases hdev
  · refine ⟨h.filled (h.alloc hv) (by rw [node_eq hv]; omega), ?_⟩
    have hmin : min direntSize ((s.ip dp).size - direntSize * j) = direntSize := by omega
    dsimp only
    rw [hmin, List.length_map, List.length_range, wp_ite]
    refine ⟨fun hne => absurd rfl hne, fun _ => (wp_pure _).mpr (hQ _ fun k hk => ?_)⟩
    rw [List.getD_eq_getElem _ _ (by rwa [List.length_map, List.length_range]), List.getElem_map, List.getElem_range]

theorem end_iff (hwhole : (s.node dp).size % direntSize = 0) : (s.ip dp).size ≤ direntSize * j ↔ s.entries dp ≤ j := by
  rw [← node_eq (h.valid hdp)]
  change (s.node dp).size % 16 = 0 at hwhole
  change (s.node dp).size ≤ 16 * j ↔ (s.node dp).size / 16 ≤ j
  omega

variable (hdir : (s.node dp).type = tDir) (hwhole : (s.node dp).size % direntSize = 0)
include hdir hwhole

theorem dirlookupLoop_first (rounds : Nat) (hr : s.entries dp ≤ j + rounds) :
    wp (dirlookupLoop dp name rounds (direntSize * j)) s (fun r _ => r =
      ((List.range' j (s.entries dp - j)).find? (s.bears dp (key name))).map fun k => (s.inum dp k, direntSize * k)) E := by
  induction rounds generalizing j with
  | zero =>
    have hend : s.entries dp ≤ j := hr
    rw [dirlookupLoop, wp_pure, Nat.sub_eq_zero_of_le hend]
    rfl
  | succ rounds ih =>
    rw [dirlookupLoop, wp_bind, wp_get, wp_ite]
    refine ⟨fun hend => ?_, fun hin => ?_⟩
    · rw [wp_pure, Nat.sub_eq_zero_of_le ((end_iff h hdp hwhole).mp hend)]
      rfl
    · have hj : j < s.entries dp := Nat.lt_of_not_le fun hle => hin ((end_iff h hdp hwhole).mpr hle)
      have hrange : List.range' j (s.entries dp - j) = j :: List.range' (j + 1) (s.entries dp - (j + 1)) := by
        rw [← List.range'_succ]
        exact congrArg (List.range' j) (by omega)
      rw [wp_bind]
      refine wp_readDirent_in h hdp hdir hj fun de hde => ?_
      rw [read_inum hde, wp_ite, hrange]
      refine ⟨fun hmatch => ?_, fun hmiss => ?_⟩
      · rw [read_title hde] at hmatch
        have hbears : s.bears dp (key name) j = true := decide_eq_true hmatch
        rw [List.find?_cons_of_pos hbears, wp_bind]
        exact (wp_modify _).mpr ((wp_pure _).mpr rfl)
      · rw [read_title hde] at hmiss
        have hbears : ¬s.bears dp (key name) j = true := fun htrue => hmiss (of_decide_eq_true htrue)
        rw [List.find?_cons_of_neg hbears]
        exact ih (j := j + 1) (by omega)

/-- `dirlookup` returns the number and the offset of the first entry with the name. -/
theorem dirlookup_entryOf : wp (dirlookup dp name) s (fun r t =>
    r = (s.entryOf dp (key name)).map (fun k => (s.inum dp k, direntSize * k)) ∧ Found o L H dp r t ∧
      Borrows (refs Prod.fst [] r) s t ∧ Leaves dp s t) fun _ _ => False := by
  have hv := h.valid hdp
  have hfirst : wp (dirlookup dp name) s (fun r _ => r =
      (s.entryOf dp (key name)).map fun k => (s.inum dp k, direntSize * k)) fun _ _ => False := by
    unfold dirlookup
    rw [wp_bind, wp_get]
    dsimp only
    rw [wp_ite]
    refine ⟨fun hno => absurd (by rw [← node_eq hv]; exact hdir) hno, fun _ => ?_⟩
    have hrounds : s.entries dp ≤ 0 + (s.ip dp).size := by
      rw [Nat.zero_add, Fs.entries, node_eq hv]
      exact Nat.div_le_self _ _
    refine wp_mono (dirlookupLoop_first h hdp hdir hwhole _ hrounds) (fun r t hr => ?_) fun _ _ he => he
    rw [Nat.sub_zero, ← List.range_eq_range'] at hr
    exact hr
  refine wp_mono (wp_and hfirst (dirlookup_borrows h hdp)) (fun r t ht => ?_) fun _ _ he => he.1
  obtain ⟨hr, hfound, hb, -⟩ := ht
  have hsound : t.Sound := by
    cases r with
    | none => exact hfound.1.toSound
    | some r => exact hfound.1.toSound
  exact ⟨hr, hfound, hb, hb.leaves h.toSound hsound (h.alloc hv)⟩

/-- The entry that is not in use, or the end. -/
theorem wp_freeDirent_hole {Q : Nat → Fs → Prop} (rounds : Nat) (hr : s.entries dp ≤ j + rounds)
    (hQ : Q (direntSize * ((List.range' j (s.entries dp - j)).find? (s.vacant dp)).getD (max j (s.entries dp))) s) : wp (freeDirent dp rounds (direntSize * j)) s Q E := by
  induction rounds generalizing j with
  | zero =>
    have hend : s.entries dp ≤ j := hr
    rw [Nat.sub_eq_zero_of_le hend, max_eq_left hend] at hQ
    rw [freeDirent, wp_pure]
    exact hQ
  | succ rounds ih =>
    rw [freeDirent, wp_bind, wp_get, wp_ite]
    refine ⟨fun hend => ?_, fun hin => ?_⟩
    · have hle := (end_iff h hdp hwhole).mp hend
      rw [Nat.sub_eq_zero_of_le hle, max_eq_left hle] at hQ
      exact (wp_pure _).mpr hQ
    · have hj : j < s.entries dp := Nat.lt_of_not_le fun hle => hin ((end_iff h hdp hwhole).mpr hle)
      have hrange : List.range' j (s.entries dp - j) = j :: List.range' (j + 1) (s.entries dp - (j + 1)) := by
        rw [← List.range'_succ]
        exact congrArg (List.range' j) (by omega)
      rw [hrange] at hQ
      rw [wp_bind]
      refine wp_readDirent_in h hdp hdir hj fun de hde => ?_
      rw [read_inum hde, wp_ite]
      refine ⟨fun hfree => ?_, fun hused => ?_⟩
      · have hvacant : s.vacant dp j = true := decide_eq_true hfree
        rw [List.find?_cons_of_pos hvacant] at hQ
        exact (wp_pure _).mpr hQ
      · have hvacant : ¬s.vacant dp j = true := fun htrue => hused (of_decide_eq_true htrue)
        rw [List.find?_cons_of_neg hvacant, max_eq_right hj.le] at hQ
        refine ih (j := j + 1) (by omega) ?_
        rw [max_eq_right hj]
        exact hQ

end Lookup

end Xv6.Disk
