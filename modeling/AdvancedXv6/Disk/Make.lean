import AdvancedXv6.Disk.Image

/-! The whole run of `mkfs`: the files one after the other, the size of the root directory and the map. -/

namespace Xv6.Disk.Mkfs
open Function Effect Bytes Fs
variable {m m' : Image} {d : Dinode} {i j a b n p off k : Nat} {c : Nat → List UInt8} {f : File} {files : List File}

/-- What `read` gives of the file. -/
def File.bytes (f : File) : List UInt8 := f.chunks.flatten

/-- The bytes of an entry. -/
def entryBytes (e : Nat × Name) : List UInt8 := (List.range direntSize).map (dirent e.1 e.2)

/-- The entries of the root directory. -/
def listing (files : List File) : List (Nat × Name) :=
  (rootIno, dot) :: (rootIno, dotdot) :: files.mapIdx fun k f => (k + 2, f.stored)

/-- The contents of the inodes: the root directory, and the files after it. -/
def contents (files : List File) (i : Nat) : List UInt8 :=
  if i = rootIno then (listing files).flatMap entryBytes else if 2 ≤ i then (files[i - 2]?).elim [] File.bytes else []

/-- How many blocks they take. -/
def cost (files : List File) : Nat :=
  blocks (direntSize * (files.length + 2)) + (files.map fun f => blocks f.bytes.length).sum

/-- The files can be put into the image. -/
structure Fits (files : List File) : Prop where
  number : files.length + 2 ≤ ninodes
  slash : ∀ f ∈ files, Files.slash ∉ f.name
  size : ∀ f ∈ files, f.bytes.length ≤ maxFile * bsize
  total : nmeta + cost files ≤ fsSize

/-! ### Files -/

theorem range_getD (l : List UInt8) : (List.range l.length).map (fun k => l.getD k 0) = l := by
  apply List.ext_getElem
  · rw [List.length_map, List.length_range]
  · intro k hk hk'
    rw [List.getElem_map, List.getElem_range, List.getD_eq_getElem _ _ hk']

/-- The pieces of a file, one after the other. -/
theorem wp_chunks {Q : Unit → Image → Prop} (chunks : List (List UInt8)) (h : Made m c) (hi : m.Used i)
    (hmax : (c i).length + chunks.flatten.length ≤ maxFile * bsize)
    (hroom : m.freeblock + blocks ((c i).length + chunks.flatten.length) ≤ fsSize + blocks (c i).length)
    (hQ : ∀ m', Made m' (update c i (c i ++ chunks.flatten)) → m'.freeinode = m.freeinode →
      m'.freeblock + blocks (c i).length = m.freeblock + blocks ((c i).length + chunks.flatten.length) → Q () m') :
    wp (forEach chunks fun x => iappend i (fun k => x.getD k 0) x.length) m Q fun _ _ => False := by
  induction chunks generalizing m c with
  | nil =>
    rw [List.flatten_nil, List.append_nil, update_eq_self] at hQ
    exact (wp_pure _).mpr (hQ m h rfl rfl)
  | cons x xs ih =>
    rw [List.flatten_cons, List.length_append] at hmax hroom
    have hmono := blocks_mono (show (c i).length + x.length ≤ (c i).length + (x.length + xs.flatten.length) by omega)
    rw [forEach, wp_bind]
    refine wp_iappend h hi (by omega) (by omega) fun m' h' hnext hcount => ?_
    rw [range_getD] at h'
    have hlen : (update c i (c i ++ x) i).length = (c i).length + x.length := by rw [update_self, List.length_append]
    have hi' : m'.Used i := by
      unfold Image.Used
      rw [hnext]
      exact hi
    refine ih h' hi' (by rw [hlen]; omega) (by rw [hlen, Nat.add_assoc]; omega) fun m'' h'' hnext' hcount' => ?_
    rw [update_idem, update_self, List.append_assoc, ← List.flatten_cons] at h''
    rw [hlen, Nat.add_assoc] at hcount'
    refine hQ m'' h'' (hnext'.trans hnext) ?_
    rw [List.flatten_cons, List.length_append]
    omega

theorem length_entryBytes (e : Nat × Name) : (entryBytes e).length = direntSize := by
  rw [entryBytes, List.length_map, List.length_range]

theorem length_flatMap (l : List (Nat × Name)) : (l.flatMap entryBytes).length = direntSize * l.length := by
  induction l with
  | nil => rfl
  | cons e l ih =>
    rw [List.flatMap_cons, List.length_append, ih, length_entryBytes, List.length_cons]
    ring

theorem length_listing (files : List File) : (listing files).length = files.length + 2 := by
  rw [listing, List.length_cons, List.length_cons, List.length_mapIdx]

theorem contents_root (files : List File) : contents files rootIno = (listing files).flatMap entryBytes := if_pos rfl

theorem length_root (files : List File) : (contents files rootIno).length = direntSize * (files.length + 2) := by
  rw [contents_root, length_flatMap, length_listing]

theorem listing_snoc (files : List File) (f : File) :
    listing (files ++ [f]) = listing files ++ [(files.length + 2, f.stored)] := by
  rw [listing, listing, List.mapIdx_append, List.mapIdx_singleton, Nat.zero_add]
  rfl

theorem contents_snoc (files : List File) (f : File) : contents (files ++ [f]) =
    update (update (contents files) rootIno (contents files rootIno ++ entryBytes (files.length + 2, f.stored)))
      (files.length + 2) f.bytes := by
  have hne : rootIno ≠ files.length + 2 := Nat.ne_of_lt (Nat.succ_lt_succ (Nat.succ_pos _))
  funext i
  by_cases hnew : i = files.length + 2
  · rw [hnew, update_self, contents, if_neg hne.symm, if_pos (Nat.le_add_left ..), Nat.add_sub_cancel,
      List.getElem?_concat_length]
    rfl
  · rw [update_of_ne hnew]
    by_cases hroot : i = rootIno
    · rw [hroot, update_self, contents_root, contents_root, listing_snoc, List.flatMap_append, List.flatMap_singleton]
    · rw [update_of_ne hroot, contents, contents, if_neg hroot, if_neg hroot]
      by_cases hi : 2 ≤ i
      · rw [if_pos hi, if_pos hi]
        by_cases hlt : i - 2 < files.length
        · rw [List.getElem?_append_left hlt]
        · rw [List.getElem?_eq_none (by rw [List.length_append, List.length_singleton]; omega),
            List.getElem?_eq_none (by omega)]
      · rw [if_neg hi, if_neg hi]

theorem cost_snoc (files : List File) (f : File) : cost (files ++ [f]) + blocks (direntSize * (files.length + 2)) =
    cost files + blocks (direntSize * (files.length + 2) + direntSize) + blocks f.bytes.length := by
  have hlen : direntSize * ((files ++ [f]).length + 2) = direntSize * (files.length + 2) + direntSize := by
    rw [List.length_append, List.length_singleton]
    ring
  rw [cost, cost, hlen, List.map_append, List.sum_append, List.map_singleton, List.sum_singleton]
  omega

/-- The image has the files. -/
structure Holds (files : List File) (m : Image) : Prop where
  made : Made m (contents files)
  next : m.freeinode = files.length + 2
  count : m.freeblock = nmeta + cost files

theorem Holds.used (h : Holds files m) (hi : i ≠ 0) (hlt : i < files.length + 2) : m.Used i :=
  ⟨Nat.pos_of_ne_zero hi, h.next ▸ hlt⟩

theorem wp_addFile {Q : Unit → Image → Prop} (h : Holds files m) (hfits : Fits (files ++ [f]))
    (hQ : ∀ m', Holds (files ++ [f]) m' → Q () m') : wp (addFile f) m Q fun _ _ => False := by
  have hmem : f ∈ files ++ [f] := List.mem_append_right _ (List.mem_singleton_self f)
  have hnumber := hfits.number
  have hsize := hfits.size f hmem
  have htotal := hfits.total
  have hcost := cost_snoc files f
  have hcount := h.count
  have hroot := length_root files
  have hne : rootIno ≠ files.length + 2 := Nat.ne_of_lt (Nat.succ_lt_succ (Nat.succ_pos _))
  rw [List.length_append, List.length_singleton] at hnumber
  unfold addFile
  rw [wp_bind]
  refine wp_assert (hfits.slash f hmem) ?_
  rw [wp_bind]
  have hnext := h.next
  refine wp_ialloc h.made (by omega) (by rw [hnext, if_neg hne.symm]) fun m1 h1 hnext1 hblock1 => ?_
  rw [hnext] at h1 hnext1 ⊢
  have hc1 : update (contents files) (files.length + 2) [] rootIno = contents files rootIno := update_of_ne hne ..
  have hu1 : m1.Used rootIno := ⟨Nat.le_refl 1, by rw [hnext1]; exact Nat.succ_lt_succ (Nat.succ_pos _)⟩
  have hlen : direntSize * (files.length + 2) + direntSize = 16 * files.length + 48 := by
    change 16 * (files.length + 2) + 16 = _
    ring
  have hcap : maxFile * bsize = 71680 := rfl
  have hnin : ninodes = 200 := rfl
  rw [wp_bind]
  refine wp_iappend h1 hu1 (by rw [hc1, hroot]; omega) (by rw [hc1, hroot]; omega) fun m2 h2 hnext2 hblock2 => ?_
  rw [hc1, hroot] at hblock2
  rw [hc1] at h2
  have hu2 : m2.Used (files.length + 2) := ⟨Nat.succ_pos _, by omega⟩
  have hc2 : update (update (contents files) (files.length + 2) []) rootIno (contents files rootIno ++
      (List.range direntSize).map (dirent (files.length + 2) f.stored)) (files.length + 2) = [] := by
    rw [update_of_ne hne.symm, update_self]
  have hbytes : f.chunks.flatten.length = f.bytes.length := rfl
  have hempty : blocks 0 = 0 := rfl
  refine wp_chunks f.chunks h2 hu2 (by rw [hc2, List.length_nil]; omega)
    (by rw [hc2, List.length_nil, Nat.zero_add, hbytes]; omega) fun m3 h3 hnext3 hblock3 => ?_
  rw [hc2, List.length_nil, Nat.zero_add, hbytes, hempty] at hblock3
  refine hQ m3 ⟨?_, ?_, by omega⟩
  · rw [hc2, List.nil_append, update_comm hne.symm, update_idem] at h3
    rw [contents_snoc]
    exact h3
  · rw [List.length_append, List.length_singleton]
    omega

theorem Fits.before {after : List File} (h : Fits (files ++ after)) : Fits files := by
  have hnumber := h.number
  have htotal := h.total
  have hmono := blocks_mono (show direntSize * (files.length + 2) ≤ direntSize * ((files ++ after).length + 2) by
    rw [List.length_append]
    exact Nat.mul_le_mul_left _ (by omega))
  unfold cost at htotal
  rw [List.map_append, List.sum_append] at htotal
  rw [List.length_append] at hnumber
  refine ⟨by omega, fun f hf => h.slash f (List.mem_append_left _ hf), fun f hf => h.size f (List.mem_append_left _ hf), ?_⟩
  unfold cost
  omega

theorem wp_addFiles {Q : Unit → Image → Prop} {before : List File} (h : Holds before m) (hfits : Fits (before ++ files))
    (hQ : ∀ m', Holds (before ++ files) m' → Q () m') : wp (forEach files addFile) m Q fun _ _ => False := by
  induction files generalizing before m with
  | nil =>
    rw [List.append_nil] at hQ
    exact (wp_pure _).mpr (hQ m h)
  | cons f files ih =>
    have hstep : before ++ f :: files = before ++ [f] ++ files := by rw [List.append_assoc, List.singleton_append]
    rw [hstep] at hfits hQ
    rw [forEach, wp_bind]
    exact wp_addFile h hfits.before fun m' h' => ih h' hfits hQ

/-! ### The root directory -/

/-- The super block is written. -/
def first : Image := { blank with disk := update blank.disk 1 (put (fun _ => 0) 0 (superBytes sb) (4 * (superWords sb).length)) }

theorem first_disk (ha : a ≠ 1) : first.disk a = fun _ => 0 := update_of_ne ha ..

theorem first_unused (i : Nat) : ¬first.Used i := fun hand => absurd hand.2 (Nat.not_lt_of_le hand.1)

theorem first_made : Made first fun _ => [] := by
  have hmeta : 1 < sb.bmapstart ∧ 1 < sb.inodestart ∧ sb.bmapstart ≤ nmeta ∧ nmeta ≤ fsSize := by decide
  refine ⟨fun k hk => ?_, fun a ha _ => first_disk (by omega), ⟨Nat.le_refl _, fun b hb => first_disk ?_⟩, hmeta.2.2.2,
    Nat.le_refl 1, ⟨fun i hi => absurd hi (first_unused i), fun i p hi => absurd hi (first_unused i),
      fun i p j q hi => absurd hi (first_unused i), fun i p hi => absurd hi (first_unused i), fun b hb => ?_⟩,
    fun b hb hlt => absurd hlt (Nat.not_lt_of_le hb), fun i hi _ => ?_, fun i hi => absurd hi (first_unused i),
    fun i hi => absurd hi (first_unused i), fun i hi => absurd hi (first_unused i), fun i k hi => absurd hi (first_unused i)⟩
  · have hself : first.disk 1 = put (fun _ => 0) 0 (superBytes sb) (4 * (superWords sb).length) := by
      unfold first
      dsimp only
      rw [update_self]
    rw [hself, put_in (Nat.zero_le k) (by omega), Nat.sub_zero]
  · change nmeta ≤ b at hb
    omega
  · rw [boot_bit (Nat.lt_of_lt_of_le hb hmeta.2.2.2)]
    exact decide_eq_true hb
  · have hrange := iblock_range hi
    unfold Image.dinode
    rw [first_disk (by omega)]
    exact word_zero

theorem contents_nil : contents [] = update (fun _ => []) rootIno (entryBytes (rootIno, dot) ++ entryBytes (rootIno, dotdot)) := by
  funext i
  by_cases hi : i = rootIno
  · rw [hi, update_self, contents_root]
    simp only [listing, List.mapIdx_nil, List.flatMap_cons, List.flatMap_nil, List.append_nil]
  · rw [update_of_ne hi, contents, if_neg hi]
    split <;> rfl

/-- The root directory without files. -/
theorem wp_root {Q : Unit → Image → Prop} (h : Made m fun _ => []) (hnext : m.freeinode = rootIno + 1) (hblock : m.freeblock = nmeta)
    (hQ : ∀ m', Holds [] m' → Q () m') : wp (do
      iappend rootIno (dirent rootIno dot) direntSize
      iappend rootIno (dirent rootIno dotdot) direntSize) m Q fun _ _ => False := by
  have hzero : blocks 0 = 0 := rfl
  have htwo : blocks direntSize = 1 ∧ blocks (direntSize + direntSize) = 1 := by decide
  have hcap : direntSize ≤ maxFile * bsize ∧ direntSize + direntSize ≤ maxFile * bsize := by decide
  have hroom : nmeta + 1 ≤ fsSize := by decide
  have hu : m.Used rootIno := ⟨Nat.le_refl 1, by rw [hnext]; exact Nat.lt_succ_self _⟩
  rw [wp_bind]
  refine wp_iappend h hu (by rw [List.length_nil, Nat.zero_add]; omega)
    (by rw [List.length_nil, Nat.zero_add]; omega) fun m1 h1 hnext1 hblock1 => ?_
  rw [List.length_nil, Nat.zero_add, hzero] at hblock1
  rw [List.nil_append] at h1
  have hu1 : m1.Used rootIno := ⟨Nat.le_refl 1, by rw [hnext1, hnext]; exact Nat.lt_succ_self _⟩
  have hlen : (update (fun _ => []) rootIno ((List.range direntSize).map (dirent rootIno dot)) rootIno).length =
      direntSize := by
    rw [update_self, List.length_map, List.length_range]
  refine wp_iappend h1 hu1 (by rw [hlen]; omega) (by rw [hlen]; omega) fun m2 h2 hnext2 hblock2 => hQ m2 ⟨?_, ?_, ?_⟩
  · rw [update_self, update_idem] at h2
    rw [contents_nil]
    exact h2
  · rw [hnext2, hnext1, hnext]
    rfl
  · rw [hlen] at hblock2
    have hcost : cost [] = 1 := by decide
    omega

/-! ### The map -/

/-- The image at the end. -/
def Image.finish (m : Image) : Image where
  disk n :=
    if sb.bmapstart ≤ n ∧ n < sb.bmapstart + (m.freeblock + bpb - 1) / bpb then
      ballocBuf ((n - sb.bmapstart) * bpb) (min m.freeblock ((n - sb.bmapstart + 1) * bpb))
    else (m.stored rootIno { m.dinode rootIno with size := ((m.dinode rootIno).size / bsize + 1) * bsize }).disk n
  freeinode := m.freeinode
  freeblock := m.freeblock

theorem wp_sectors {Q : Unit → Image → Prop} {E : Assertion → Image → Prop} (buf : Nat → Block) (k l : Nat)
    (hQ : Q () { m with disk := fun n =>
      if sb.bmapstart + k ≤ n ∧ n < sb.bmapstart + (k + l) then buf (n - sb.bmapstart) else m.disk n }) :
    wp (forEach (List.range' k l) fun sector => wsect (sb.bmapstart + sector) (buf sector)) m Q E := by
  induction l generalizing k m with
  | zero =>
    have hsame : (fun n => if sb.bmapstart + k ≤ n ∧ n < sb.bmapstart + (k + 0) then buf (n - sb.bmapstart) else m.disk n) =
        m.disk := by
      funext n
      exact if_neg (by omega)
    rw [hsame] at hQ
    exact (wp_pure _).mpr hQ
  | succ l ih =>
    rw [List.range'_succ, forEach, wp_bind]
    unfold wsect
    rw [wp_modify]
    refine ih (k + 1) ?_
    have hsame : (fun n => if sb.bmapstart + (k + 1) ≤ n ∧ n < sb.bmapstart + (k + 1 + l) then buf (n - sb.bmapstart)
        else update m.disk (sb.bmapstart + k) (buf k) n) =
        fun n => if sb.bmapstart + k ≤ n ∧ n < sb.bmapstart + (k + (l + 1)) then buf (n - sb.bmapstart) else m.disk n := by
      funext n
      by_cases hn : n = sb.bmapstart + k
      · rw [hn, if_neg (by omega), update_self, if_pos (by omega), Nat.add_sub_cancel_left]
      · rw [update_of_ne hn]
        exact if_congr (by omega) rfl rfl
    dsimp only
    rw [hsame]
    exact hQ

theorem wp_main {Q : Unit → Image → Prop} (hfits : Fits files) (hQ : ∀ m, Holds files m → Q () m.finish) :
    wp (main files) blank Q fun _ _ => False := by
  have hone : first.freeinode = rootIno := rfl
  have hblock : first.freeblock = nmeta := rfl
  unfold main
  rw [wp_bind]
  unfold wsect
  rw [wp_modify, wp_bind]
  change wp _ first _ _
  refine wp_ialloc first_made (by decide) (by rw [if_pos hone]) fun m1 h1 hnext1 hblock1 => ?_
  rw [hone] at h1 hnext1 ⊢
  rw [show update (fun _ => ([] : List UInt8)) rootIno [] = fun _ => [] from update_eq_self ..] at h1
  rw [wp_bind]
  refine wp_assert rfl ?_
  have hroot := wp_root (Q := fun _ m' => Holds [] m') h1 hnext1 (hblock1.trans hblock) fun _ h' => h'
  rw [wp_bind] at hroot ⊢
  refine wp_mono hroot (fun _ m2 hm2 => ?_) fun _ _ he => he
  rw [wp_bind]
  refine wp_mono hm2 (fun _ m2 hm2 => ?_) fun _ _ he => he
  rw [wp_bind]
  refine wp_addFiles hm2 hfits fun m3 hm3 => ?_
  unfold rinode winode rsect wsect balloc
  rw [wp_bind, wp_bind, wp_get, wp_pure, wp_bind, wp_bind, wp_bind, wp_get, wp_pure, wp_modify, wp_bind, wp_get,
    List.range_eq_range']
  refine wp_sectors (fun sector => ballocBuf (sector * bpb) (min m3.freeblock ((sector + 1) * bpb))) 0 _ ?_
  rw [Nat.zero_add]
  exact hQ m3 hm3

end Xv6.Disk.Mkfs
