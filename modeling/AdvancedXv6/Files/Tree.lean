import AdvancedXv6.Files.Syscall
import AdvancedXv6.Lib.Counting

/-! The links between the inodes on the disk: how the names of an inode are counted, and what keeps
the counts exact. -/

namespace Xv6.Files
open Function Finset Counting

theorem toShort_small {n : Nat} (h : n ≤ 32767) : toShort n = n := by
  unfold toShort
  omega

/-- What the links depend on. -/
structure Disk where
  type : Nat → Kind
  nlink : Nat → Int
  entries : Nat → List Dirent

namespace Disk

variable {D D' : Disk} {c m n p q : Nat} {es : List Dirent} {type : Kind}

/-- A directory with links. -/
def Live (D : Disk) (p : Nat) : Prop := D.type p = .dir ∧ 0 < D.nlink p

instance (D : Disk) (p : Nat) : Decidable (D.Live p) := inferInstanceAs (Decidable (_ ∧ _))

/-- The entries of `p` that name `n`, other than `.`, if `p` has links. -/
def shown (D : Disk) (n p : Nat) : Nat :=
  if D.Live p then (D.entries p).countP fun e => decide (e.inum = n ∧ e.name ≠ dot) else 0

def names (D : Disk) (n : Nat) : Nat := ∑ p ∈ range ninodes, D.shown n p

/-- The inode of the entry `..` of a directory. -/
def up (D : Disk) (p : Nat) : Nat := ((D.entries p).getD 1 ⟨0, []⟩).inum

/-- The entries of a directory after the first two. -/
def rest (D : Disk) (p : Nat) : List Dirent := (D.entries p).drop 2

def listed (D : Disk) (n p : Nat) : Nat :=
  if D.Live p then (D.rest p).countP fun e => decide (e.inum = n) else 0

def lists (D : Disk) (n : Nat) : Nat := ∑ p ∈ range ninodes, D.listed n p

/-- What the link counts rest on: every directory with links, besides the root, is an entry of one
directory, which is the one that its own `..` names. -/
structure Tree (D : Disk) : Prop where
  bound : ∀ n, D.type n ≠ .free → 0 < n ∧ n < ninodes
  flat : ∀ n, D.type n ≠ .dir → D.entries n = []
  shape : ∀ p, D.type p = .dir → ∃ q rest, 0 < q ∧ D.entries p = ⟨p, dot⟩ :: ⟨q, dotDot⟩ :: rest ∧
    ∀ e ∈ rest, e.name ≠ dot ∧ e.name ≠ dotDot
  count : ∀ n, D.type n ≠ .free → D.names n < 2 ^ 16 ∧ D.nlink n = toShort (D.names n)
  gone : ∀ n, 0 < n → D.type n = .free → D.names n = 0
  dead : ∀ p, D.type p = .dir → D.nlink p = 0 → ∀ e ∈ D.rest p, e.inum = 0
  root : D.Live rootIno ∧ D.up rootIno = rootIno
  rootless : D.lists rootIno = 0
  home : ∀ c, D.Live c → c ≠ rootIno → 0 < D.listed c (D.up c)
  sole : ∀ c, D.type c = .dir → c ≠ rootIno → D.lists c ≤ 1

namespace Tree

theorem rest_name (h : D.Tree) (hp : D.type p = .dir) : ∀ e ∈ D.rest p, e.name ≠ dot ∧ e.name ≠ dotDot := by
  obtain ⟨q, rest, -, hes, hrest⟩ := h.shape p hp
  rw [Disk.rest, hes]
  exact hrest

theorem entries_eq (h : D.Tree) (hp : D.type p = .dir) :
    D.entries p = ⟨p, dot⟩ :: ⟨D.up p, dotDot⟩ :: D.rest p := by
  obtain ⟨q, rest, -, hes, -⟩ := h.shape p hp
  rw [Disk.up, Disk.rest, hes]
  rfl

theorem live_bound (h : D.Tree) (hp : D.Live p) : p ∈ range ninodes :=
  mem_range.mpr (h.bound p (by rw [hp.1]; decide)).2

end Tree

/-- Where no entry is named `.`, that no `.` is counted makes no difference. -/
theorem countP_named (hes : ∀ e ∈ es, e.name ≠ dot) (n : Nat) :
    (es.countP fun e => decide (e.inum = n ∧ e.name ≠ dot)) = es.countP fun e => decide (e.inum = n) := by
  refine List.countP_congr fun e he => ?_
  simp [hes e he]

/-- The entries that count are those after the first two and the entry `..`. -/
theorem Tree.shown_eq (h : D.Tree) (n p : Nat) :
    D.shown n p = D.listed n p + if D.Live p ∧ D.up p = n then 1 else 0 := by
  rw [shown, listed]
  split
  · rename_i hp
    have hname : dotDot ≠ dot := by decide
    rw [h.entries_eq hp.1, List.countP_cons_of_neg (by simp), List.countP_cons,
      countP_named fun e he => (h.rest_name hp.1 e he).1]
    simp [hp, hname]
  · rename_i hp
    rw [if_neg fun hc => hp hc.1]

theorem Tree.names_eq (h : D.Tree) (n : Nat) :
    D.names n = D.lists n + ∑ p ∈ range ninodes, if D.Live p ∧ D.up p = n then 1 else 0 := by
  rw [names, lists, ← sum_add_distrib]
  exact sum_congr rfl fun p _ => h.shown_eq n p

theorem Tree.dir_names (h : D.Tree) (hn : D.type n = .dir) : D.names n ≤ ninodes + 1 := by
  have hups : (∑ p ∈ range ninodes, if D.Live p ∧ D.up p = n then 1 else 0) ≤ ninodes := by
    refine (sum_le_card_nsmul _ _ 1 fun p _ => ?_).trans (by simp)
    split <;> decide
  have hlists : D.lists n ≤ 1 := by
    by_cases hroot : n = rootIno
    · rw [hroot, h.rootless]
      exact Nat.zero_le 1
    · exact h.sole n hn hroot
  rw [h.names_eq]
  omega

/-- Too few names for an overflow. -/
theorem Tree.dir_nlink (h : D.Tree) (hn : D.type n = .dir) : D.nlink n = D.names n := by
  rw [(h.count n (by rw [hn]; decide)).2]
  exact toShort_small ((h.dir_names hn).trans (by decide))

theorem Tree.live_iff (h : D.Tree) (hn : D.type n = .dir) : D.Live n ↔ D.nlink n ≠ 0 := by
  have := h.dir_nlink hn
  rw [Live, and_iff_right hn]
  omega

theorem Tree.live_up (h : D.Tree) (hp : D.Live p) (hroot : p ≠ rootIno) : D.Live (D.up p) := by
  by_contra hup
  have hpos := h.home p hp hroot
  rw [listed, if_neg hup] at hpos
  exact absurd hpos (Nat.lt_irrefl 0)

theorem Tree.up_pos (h : D.Tree) (hp : D.type p = .dir) : 0 < D.up p := by
  obtain ⟨q, rest, hq, hes, -⟩ := h.shape p hp
  rw [up, hes]
  exact hq

theorem lists_pos (hp : p ∈ range ninodes) : D.listed n p ≤ D.lists n :=
  single_le_sum (f := D.listed n) (fun _ _ => Nat.zero_le _) hp

theorem Tree.free_names (h : D.Tree) (hn : D.type n ≠ .free) (hzero : D.nlink n = 0) : D.names n = 0 := by
  obtain ⟨hlt, hcount⟩ := h.count n hn
  rw [hzero] at hcount
  unfold toShort at hcount
  omega

/-- No directory has `..` for an entry that names an empty directory. -/
theorem Tree.only_name (h : D.Tree) (hc : D.Live c) (hcr : c ≠ rootIno) (hzero : ∀ e ∈ D.rest c, e.inum = 0) :
    D.names c = 1 := by
  have hups : (∑ q ∈ range ninodes, if D.Live q ∧ D.up q = c then 1 else 0) = 0 := by
    refine sum_eq_zero fun q _ => if_neg fun hq => ?_
    by_cases hqr : q = rootIno
    · rw [hqr, h.root.2] at hq
      exact hcr hq.2.symm
    · have hpos := h.home q hq.1 hqr
      rw [hq.2, listed, if_pos hc] at hpos
      obtain ⟨e, he, hen⟩ := List.countP_pos_iff.mp hpos
      have := hzero e he
      have := (h.bound q (by rw [hq.1.1]; decide)).1
      simp only [decide_eq_true_eq] at hen
      omega
  have hhome := h.home c hc hcr
  have hle := h.sole c hc.1 hcr
  have hup := h.live_bound (h.live_up hc hcr)
  have := lists_pos (D := D) (n := c) hup
  rw [h.names_eq, hups]
  omega

/-- A directory is an entry of the directory that its own `..` names. -/
theorem Tree.up_eq (h : D.Tree) (hc : D.Live c) (hcr : c ≠ rootIno) (hp : p ∈ range ninodes)
    (hl : 0 < D.listed c p) : D.up c = p := by
  by_contra hne
  have hhome := h.home c hc hcr
  have hle := h.sole c hc.1 hcr
  have hup := h.live_bound (h.live_up hc hcr)
  have := add_le_sum (f := D.listed c) (fun _ _ => Nat.zero_le _) hup hp hne
  rw [lists] at hle
  omega

/-- The entry `..` of a directory is not the only name of its parent. -/
theorem Tree.two_names (h : D.Tree) (hc : D.Live c) (hcr : c ≠ rootIno) : 2 ≤ D.names (D.up c) := by
  have hp := h.live_up hc hcr
  have hc' := h.live_bound hc
  have hone : (if D.Live c ∧ D.up c = D.up c then 1 else 0) = 1 := if_pos ⟨hc, rfl⟩
  rw [h.names_eq]
  by_cases hpr : D.up c = rootIno
  · have hr : (if D.Live rootIno ∧ D.up rootIno = D.up c then 1 else 0) = 1 :=
      if_pos ⟨h.root.1, h.root.2.trans hpr.symm⟩
    have := add_le_sum (f := fun q => if D.Live q ∧ D.up q = D.up c then 1 else 0) (fun _ _ => Nat.zero_le _)
      hc' (h.live_bound h.root.1) hcr
    omega
  · have := single_le_sum (f := fun q => if D.Live q ∧ D.up q = D.up c then 1 else 0)
      (fun _ _ => Nat.zero_le _) hc'
    have hhome := h.home _ hp hpr
    have := lists_pos (D := D) (n := D.up c) (h.live_bound (h.live_up hp hpr))
    omega

/-! ### Changes of a directory -/

/-- The entries of `p` after the first two are changed. -/
def relist (D : Disk) (p : Nat) (es : List Dirent) : Disk :=
  { D with entries := update D.entries p (⟨p, dot⟩ :: ⟨D.up p, dotDot⟩ :: es) }

@[simp] theorem relist_entries (D : Disk) (p : Nat) (es : List Dirent) :
    (D.relist p es).entries p = ⟨p, dot⟩ :: ⟨D.up p, dotDot⟩ :: es := update_self ..

theorem relist_entries_of_ne (hq : q ≠ p) (D : Disk) (es : List Dirent) :
    (D.relist p es).entries q = D.entries q := update_of_ne hq ..

theorem relist_up (D : Disk) (p : Nat) (es : List Dirent) (q : Nat) : (D.relist p es).up q = D.up q := by
  by_cases hq : q = p
  · rw [hq, up, relist_entries]
    rfl
  · rw [up, relist_entries_of_ne hq, up]

theorem relist_rest (D : Disk) (p : Nat) (es : List Dirent) : (D.relist p es).rest p = es := by
  rw [rest, relist_entries]
  rfl

theorem relist_rest_of_ne (hq : q ≠ p) (D : Disk) (es : List Dirent) : (D.relist p es).rest q = D.rest q := by
  rw [rest, relist_entries_of_ne hq, rest]

/-- How many entries of a list name the inode. -/
def naming (es : List Dirent) (n : Nat) : Nat := es.countP fun e => decide (e.inum = n)

theorem listed_live (hp : D.Live p) : D.listed n p = naming (D.rest p) n := if_pos hp

theorem Tree.shown_relist (h : D.Tree) (hp : D.Live p) (hes : ∀ e ∈ es, e.name ≠ dot) (n : Nat) :
    (D.relist p es).shown n p + naming (D.rest p) n = D.shown n p + naming es n := by
  have hp' : (D.relist p es).Live p := hp
  rw [shown, shown, if_pos hp, if_pos hp', h.entries_eq hp.1, relist_entries]
  simp only [List.countP_cons, countP_named hes, countP_named fun e he => (h.rest_name hp.1 e he).1, naming]
  omega

theorem Tree.names_relist (h : D.Tree) (hp : D.Live p) (hes : ∀ e ∈ es, e.name ≠ dot) (n : Nat) :
    (D.relist p es).names n + naming (D.rest p) n = D.names n + naming es n := by
  have hchange : (D.relist p es).names n + D.shown n p = D.names n + (D.relist p es).shown n p := by
    refine sum_change (fun q _ hq => ?_) (h.live_bound hp)
    rw [shown, shown, relist_entries_of_ne hq]
    rfl
  have := h.shown_relist hp hes n
  omega

theorem Tree.lists_relist (h : D.Tree) (hp : D.Live p) (es : List Dirent) (n : Nat) :
    (D.relist p es).lists n + naming (D.rest p) n = D.lists n + naming es n := by
  have hchange : (D.relist p es).lists n + D.listed n p = D.lists n + (D.relist p es).listed n p := by
    refine sum_change (fun q _ hq => ?_) (h.live_bound hp)
    rw [listed, listed, relist_rest_of_ne hq]
    rfl
  have hp' : (D.relist p es).Live p := hp
  rw [listed_live hp, listed_live hp', relist_rest] at hchange
  omega

/-! ### Changes of a link count -/

def setNlink (D : Disk) (n : Nat) (v : Int) : Disk := { D with nlink := update D.nlink n v }

@[simp] theorem setNlink_self (D : Disk) (n : Nat) (v : Int) : (D.setNlink n v).nlink n = v := update_self ..

theorem setNlink_of_ne (hm : m ≠ n) (D : Disk) (v : Int) : (D.setNlink n v).nlink m = D.nlink m :=
  update_of_ne hm ..

theorem setNlink_live (hc : D.type c ≠ .dir) (v : Int) (q : Nat) : (D.setNlink c v).Live q ↔ D.Live q := by
  refine and_congr_right fun hq => ?_
  have hne : q ≠ c := fun hqc => hc (hqc ▸ hq)
  rw [setNlink_of_ne hne]

theorem setNlink_names (hc : D.type c ≠ .dir) (v : Int) (n : Nat) : (D.setNlink c v).names n = D.names n :=
  sum_congr rfl fun q _ => if_congr (setNlink_live hc v q) rfl rfl

theorem setNlink_listed (hc : D.type c ≠ .dir) (v : Int) (n q : Nat) :
    (D.setNlink c v).listed n q = D.listed n q := if_congr (setNlink_live hc v q) rfl rfl

/-- The names of an inode that is no directory are changed in one directory, and its count with them. -/
theorem Tree.relink (h : D.Tree) (hp : D.Live p) (hc : D.type c ≠ .dir) (hfree : D.type c ≠ .free)
    (hes : ∀ e ∈ es, e.name ≠ dot ∧ e.name ≠ dotDot)
    (hother : ∀ m, 0 < m → m ≠ c → naming es m = naming (D.rest p) m)
    (hlt : D.names c + naming es c < naming (D.rest p) c + 2 ^ 16) {v : Int}
    (hv : v = toShort (D.names c + naming es c - naming (D.rest p) c)) :
    ((D.relist p es).setNlink c v).Tree := by
  have hne : ∀ q, D.type q = .dir → q ≠ c := fun q hq hqc => hc (hqc ▸ hq)
  have hc : (D.relist p es).type c ≠ .dir := hc
  have hlive : ∀ q, ((D.relist p es).setNlink c v).Live q ↔ D.Live q := setNlink_live hc v
  have hnames : ∀ n, ((D.relist p es).setNlink c v).names n + naming (D.rest p) n = D.names n + naming es n := by
    intro n
    rw [setNlink_names hc]
    exact h.names_relist hp (fun e he => (hes e he).1) n
  have hlists : ∀ n, 0 < n → n ≠ c → ((D.relist p es).setNlink c v).lists n = D.lists n := by
    intro n hn hnc
    have := h.lists_relist hp es n
    have hl : ((D.relist p es).setNlink c v).lists n = (D.relist p es).lists n :=
      sum_congr rfl fun q _ => setNlink_listed hc v n q
    rw [hother n hn hnc] at this
    omega
  have hpos : ∀ n, D.type n ≠ .free → 0 < n := fun n hn => (h.bound n hn).1
  have hdir : ∀ q, D.type q = .dir → 0 < q := fun q hq => hpos q (by rw [hq]; decide)
  refine ⟨h.bound, fun n hn => ?_, fun q hq => ?_, fun n hn => ?_, fun n hn hfree' => ?_, fun q hq hzero => ?_,
    ⟨(hlive _).mpr h.root.1, ?_⟩, ?_, fun d hd hroot => ?_, fun d hd hroot => ?_⟩
  · have hnp : n ≠ p := fun hnp => hn (hnp ▸ hp.1)
    exact (relist_entries_of_ne hnp ..).trans (h.flat n hn)
  · by_cases hqp : q = p
    · subst hqp
      exact ⟨D.up q, es, h.up_pos hp.1, relist_entries .., hes⟩
    · obtain ⟨r, rest, hpos, hr⟩ := h.shape q hq
      refine ⟨r, rest, hpos, ?_, hr.2⟩
      rw [← hr.1]
      exact relist_entries_of_ne hqp ..
  · have hcount := h.count n hn
    have := hnames n
    by_cases hnc : n = c
    · subst hnc
      refine ⟨by omega, (setNlink_self ..).trans (hv.trans (congrArg toShort ?_))⟩
      omega
    · have hnl : ((D.relist p es).setNlink c v).nlink n = D.nlink n := setNlink_of_ne hnc ..
      rw [hother n (hpos n hn) hnc] at this
      rw [hnl, Nat.add_right_cancel this]
      exact hcount
  · have hnc : n ≠ c := fun hnc => hfree (hnc ▸ hfree')
    have := hnames n
    rw [hother n hn hnc, h.gone n hn hfree'] at this
    omega
  · have hnl : ((D.relist p es).setNlink c v).nlink q = D.nlink q := setNlink_of_ne (hne q hq) ..
    have hqp : q ≠ p := by
      rintro rfl
      exact absurd (hnl.symm.trans hzero) ((h.live_iff hq).mp hp)
    have hrest : ((D.relist p es).setNlink c v).rest q = D.rest q := relist_rest_of_ne hqp ..
    rw [hrest]
    exact h.dead q hq (hnl.symm.trans hzero)
  · exact (relist_up ..).trans h.root.2
  · rw [hlists rootIno (by decide) (hne _ h.root.1.1)]
    exact h.rootless
  · have hd := (hlive d).mp hd
    have hup : ((D.relist p es).setNlink c v).up d = D.up d := relist_up ..
    rw [hup, setNlink_listed hc]
    have hhome := h.home d hd hroot
    by_cases hdp : D.up d = p
    · have hp' : (D.relist p es).Live p := hp
      rw [hdp] at hhome ⊢
      rw [listed_live hp', relist_rest, hother d (hdir d hd.1) (hne d hd.1), ← listed_live hp]
      exact hhome
    · have : (D.relist p es).listed d (D.up d) = D.listed d (D.up d) := by
        rw [listed, relist_rest_of_ne hdp]
        rfl
      rw [this]
      exact hhome
  · rw [hlists d (hdir d hd) (hne d hd)]
    exact h.sole d hd hroot

/-! ### Inodes without links -/

/-- The inode has the type and the entries, and no links. -/
def put (D : Disk) (n : Nat) (type : Kind) (es : List Dirent) : Disk :=
  ⟨update D.type n type, update D.nlink n 0, update D.entries n es⟩

@[simp] theorem put_type (D : Disk) (n : Nat) (type : Kind) (es : List Dirent) : (D.put n type es).type n = type :=
  update_self ..

theorem put_type_of_ne (hm : m ≠ n) (D : Disk) (es : List Dirent) : (D.put n type es).type m = D.type m :=
  update_of_ne hm ..

@[simp] theorem put_nlink (D : Disk) (n : Nat) (type : Kind) (es : List Dirent) : (D.put n type es).nlink n = 0 :=
  update_self ..

theorem put_nlink_of_ne (hm : m ≠ n) (D : Disk) (es : List Dirent) : (D.put n type es).nlink m = D.nlink m :=
  update_of_ne hm ..

@[simp] theorem put_entries (D : Disk) (n : Nat) (type : Kind) (es : List Dirent) :
    (D.put n type es).entries n = es := update_self ..

theorem put_entries_of_ne (hm : m ≠ n) (D : Disk) (es : List Dirent) :
    (D.put n type es).entries m = D.entries m := update_of_ne hm ..

theorem put_live (hn : ¬D.Live n) (q : Nat) : (D.put n type es).Live q ↔ D.Live q := by
  by_cases hq : q = n
  · subst hq
    refine iff_of_false (fun h => ?_) hn
    rw [Live, put_nlink] at h
    exact absurd h.2 (Int.lt_irrefl 0)
  · rw [Live, put_type_of_ne hq, put_nlink_of_ne hq, Live]

theorem put_names (hn : ¬D.Live n) (m : Nat) : (D.put n type es).names m = D.names m := by
  refine sum_congr rfl fun q _ => ?_
  by_cases hq : D.Live q
  · have hqn : q ≠ n := fun h => hn (h ▸ hq)
    rw [shown, shown, if_pos hq, if_pos ((put_live hn q).mpr hq), put_entries_of_ne hqn]
  · rw [shown, shown, if_neg hq, if_neg fun h => hq ((put_live hn q).mp h)]

theorem put_listed (hn : ¬D.Live n) (m q : Nat) : (D.put n type es).listed m q = D.listed m q := by
  by_cases hq : D.Live q
  · have hqn : q ≠ n := fun h => hn (h ▸ hq)
    rw [listed, listed, if_pos hq, if_pos ((put_live hn q).mpr hq), rest, put_entries_of_ne hqn, rest]
  · rw [listed, listed, if_neg hq, if_neg fun h => hq ((put_live hn q).mp h)]

theorem Tree.lists_le (h : D.Tree) (n : Nat) : D.lists n ≤ D.names n := by
  rw [h.names_eq]
  exact Nat.le_add_right ..

/-- An inode without names is freed, or taken. -/
theorem Tree.put (h : D.Tree) (hb : 0 < n ∧ n < ninodes) (hlive : ¬D.Live n) (hnames : D.names n = 0)
    (hflat : type ≠ .dir → es = []) (hshape : type = .dir → ∃ q, 0 < q ∧ es = [⟨n, dot⟩, ⟨q, dotDot⟩]) :
    (D.put n type es).Tree := by
  have hroot : rootIno ≠ n := fun hr => hlive (hr ▸ h.root.1)
  have hup : ∀ q, q ≠ n → (D.put n type es).up q = D.up q := fun q hq => by
    rw [up, put_entries_of_ne hq, up]
  refine ⟨fun m hm => ?_, fun m hm => ?_, fun q hq => ?_, fun m hm => ?_, fun m hm hfree => ?_,
    fun q hq hzero => ?_, ⟨(put_live hlive _).mpr h.root.1, (hup _ hroot).trans h.root.2⟩, ?_,
    fun d hd hd' => ?_, fun d hd hd' => ?_⟩
  · by_cases hmn : m = n
    · rw [hmn]
      exact hb
    · rw [put_type_of_ne hmn] at hm
      exact h.bound m hm
  · by_cases hmn : m = n
    · rw [hmn, put_type] at hm
      rw [hmn, put_entries]
      exact hflat hm
    · rw [put_type_of_ne hmn] at hm
      rw [put_entries_of_ne hmn]
      exact h.flat m hm
  · by_cases hqn : q = n
    · rw [hqn, put_type] at hq
      rw [hqn, put_entries]
      obtain ⟨r, hr, rfl⟩ := hshape hq
      exact ⟨r, [], hr, rfl, fun e he => absurd he List.not_mem_nil⟩
    · rw [put_type_of_ne hqn] at hq
      rw [put_entries_of_ne hqn]
      exact h.shape q hq
  · rw [put_names hlive]
    by_cases hmn : m = n
    · rw [hmn, put_nlink, hnames]
      exact ⟨by decide, rfl⟩
    · rw [put_type_of_ne hmn] at hm
      rw [put_nlink_of_ne hmn]
      exact h.count m hm
  · rw [put_names hlive]
    by_cases hmn : m = n
    · rw [hmn, hnames]
    · rw [put_type_of_ne hmn] at hfree
      exact h.gone m hm hfree
  · by_cases hqn : q = n
    · rw [hqn, put_type] at hq
      obtain ⟨r, -, rfl⟩ := hshape hq
      rw [hqn, rest, put_entries]
      exact fun e he => absurd he List.not_mem_nil
    · rw [put_type_of_ne hqn] at hq
      rw [put_nlink_of_ne hqn] at hzero
      rw [rest, put_entries_of_ne hqn]
      exact h.dead q hq hzero
  · rw [lists, sum_congr rfl fun q _ => put_listed hlive _ q]
    exact h.rootless
  · have hd := (put_live hlive d).mp hd
    rw [put_listed hlive, hup d fun hdn => hlive (hdn ▸ hd)]
    exact h.home d hd hd'
  · rw [lists, sum_congr rfl fun q _ => put_listed hlive _ q]
    by_cases hdn : d = n
    · rw [hdn]
      exact (h.lists_le n).trans (hnames.le.trans (Nat.zero_le 1))
    · rw [put_type_of_ne hdn] at hd
      exact h.sole d hd hd'

/-! ### Directories that come and go -/

/-- The entries of `p` and its count change, and the count of a directory `c`. -/
def graft (D : Disk) (p : Nat) (es : List Dirent) (v : Int) (c : Nat) (w : Int) : Disk :=
  ((D.relist p es).setNlink p v).setNlink c w

section Graft
variable {v w : Int}

@[simp] theorem graft_nlink_child (D : Disk) (p : Nat) (es : List Dirent) (v : Int) (c : Nat) (w : Int) :
    (D.graft p es v c w).nlink c = w := setNlink_self ..

theorem graft_nlink_parent (hcp : c ≠ p) (D : Disk) (es : List Dirent) :
    (D.graft p es v c w).nlink p = v := (setNlink_of_ne hcp.symm ..).trans (setNlink_self ..)

theorem graft_nlink_of_ne (hp : q ≠ p) (hc : q ≠ c) (D : Disk) (es : List Dirent) :
    (D.graft p es v c w).nlink q = D.nlink q := (setNlink_of_ne hc ..).trans (setNlink_of_ne hp ..)

theorem graft_live (hc : q ≠ c) (hcp : c ≠ p) (hp : D.Live p) (hv : 0 < v) :
    (D.graft p es v c w).Live q ↔ D.Live q := by
  by_cases hq : q = p
  · subst hq
    rw [Live, graft_nlink_parent hcp]
    exact iff_of_true ⟨hp.1, hv⟩ hp
  · rw [Live, graft_nlink_of_ne hq hc]
    exact Iff.rfl

theorem graft_rest (hq : q ≠ p) (D : Disk) (es : List Dirent) : (D.graft p es v c w).rest q = D.rest q :=
  relist_rest_of_ne hq ..

theorem graft_up (D : Disk) (q : Nat) : (D.graft p es v c w).up q = D.up q := relist_up ..

/-- The change at `p` and the change at `c`. -/
theorem Tree.names_graft (h : D.Tree) (hp : D.Live p) (hcp : c ≠ p) (hc : c ∈ range ninodes) (hv : 0 < v)
    (hes : ∀ e ∈ es, e.name ≠ dot) (n : Nat) :
    (D.graft p es v c w).names n + naming (D.rest p) n + D.shown n c =
      D.names n + naming es n + (D.graft p es v c w).shown n c := by
  have hchange : (D.graft p es v c w).names n + D.shown n p + D.shown n c =
      D.names n + (D.graft p es v c w).shown n p + (D.graft p es v c w).shown n c := by
    refine sum_change_two hcp.symm (fun q hqp hqc => ?_) (h.live_bound hp) hc
    have he : (D.graft p es v c w).entries q = D.entries q := relist_entries_of_ne hqp ..
    rw [shown, shown, he]
    exact if_congr (graft_live hqc hcp hp hv) rfl rfl
  have hshown : (D.graft p es v c w).shown n p = (D.relist p es).shown n p :=
    if_congr (graft_live hcp.symm hcp hp hv) rfl rfl
  have := h.shown_relist hp hes n
  omega

theorem Tree.lists_graft (h : D.Tree) (hp : D.Live p) (hcp : c ≠ p) (hc : c ∈ range ninodes) (hv : 0 < v)
    (n : Nat) : (D.graft p es v c w).lists n + naming (D.rest p) n + D.listed n c =
      D.lists n + naming es n + (D.graft p es v c w).listed n c := by
  have hchange : (D.graft p es v c w).lists n + D.listed n p + D.listed n c =
      D.lists n + (D.graft p es v c w).listed n p + (D.graft p es v c w).listed n c := by
    refine sum_change_two hcp.symm (fun q hqp hqc => ?_) (h.live_bound hp) hc
    rw [listed, listed, graft_rest hqp]
    exact if_congr (graft_live hqc hcp hp hv) rfl rfl
  have hp' : (D.graft p es v c w).Live p := (graft_live hcp.symm hcp hp hv).mpr hp
  have hr : (D.graft p es v c w).rest p = es := relist_rest ..
  rw [listed_live hp, listed_live hp', hr] at hchange
  omega

theorem naming_zero (hes : ∀ e ∈ es, e.inum = 0) (hn : 0 < n) : naming es n = 0 := by
  refine List.countP_eq_zero.mpr fun e he => ?_
  have := hes e he
  simp only [decide_eq_true_eq]
  omega

theorem listed_zero (hes : ∀ e ∈ D.rest c, e.inum = 0) (hn : 0 < n) : D.listed n c = 0 := by
  have := naming_zero hes hn
  rw [listed]
  split
  · exact this
  · rfl

theorem Tree.shown_child (h : D.Tree) (hc : D.type c = .dir) (hes : ∀ e ∈ D.rest c, e.inum = 0) (hcp : c ≠ p)
    (hn : 0 < n) : (D.graft p es v c w).shown n c = if 0 < w ∧ D.up c = n then 1 else 0 := by
  have he : (D.graft p es v c w).entries c = D.entries c := relist_entries_of_ne hcp ..
  have hl : (D.graft p es v c w).Live c ↔ 0 < w := by
    rw [Live, graft_nlink_child]
    exact and_iff_right hc
  have hname : dotDot ≠ dot := by decide
  have hzero := naming_zero hes hn
  rw [shown, he, h.entries_eq hc, List.countP_cons_of_neg (by simp), List.countP_cons,
    countP_named fun e he => (h.rest_name hc e he).1]
  rw [naming] at hzero
  rw [hzero]
  by_cases hw : 0 < w
  · simp [hw, hl, hname]
  · simp [hw, hl]

/-- A directory `c` whose `..` is `p` becomes an entry of `p`, or is one no longer. -/
theorem Tree.graft (h : D.Tree) (hp : D.Live p) (hc : D.type c = .dir) (hcp : c ≠ p) (hcr : c ≠ rootIno)
    (hup : D.up c = p) (hzero : ∀ e ∈ D.rest c, e.inum = 0) (hes : ∀ e ∈ es, e.name ≠ dot ∧ e.name ≠ dotDot)
    (hother : ∀ m, 0 < m → m ≠ c → naming es m = naming (D.rest p) m) (hw : 0 ≤ w ∧ w ≤ 1)
    (hchild : (D.names c : Int) + naming es c = naming (D.rest p) c + w)
    (hnew : 0 < w → 0 < naming es c) (hv : 0 < v)
    (hparent : (D.names p : Int) + (if 0 < w then 1 else 0) = v + if D.Live c then 1 else 0) :
    (D.graft p es v c w).Tree := by
  have hcr' : c ∈ range ninodes := mem_range.mpr (h.bound c (by rw [hc]; decide)).2
  have hdir : ∀ q, D.type q = .dir → 0 < q := fun q hq => (h.bound q (by rw [hq]; decide)).1
  have hlive : ∀ q, q ≠ c → ((D.graft p es v c w).Live q ↔ D.Live q) := fun q hq => graft_live hq hcp hp hv
  have hnames := h.names_graft (w := w) hp hcp hcr' hv fun e he => (hes e he).1
  have hlists : ∀ n, (D.graft p es v c w).lists n + naming (D.rest p) n + D.listed n c =
      D.lists n + naming es n + (D.graft p es v c w).listed n c := h.lists_graft hp hcp hcr' hv
  have hrest : (D.graft p es v c w).rest c = D.rest c := graft_rest hcp ..
  have hshown : ∀ n, 0 < n → D.shown n c = if D.Live c ∧ p = n then 1 else 0 := fun n hn => by
    rw [h.shown_eq, listed_zero hzero hn, Nat.zero_add, hup]
  have hshown' : ∀ n, 0 < n → (D.graft p es v c w).shown n c = if 0 < w ∧ p = n then 1 else 0 := fun n hn => by
    rw [h.shown_child hc hzero hcp hn, hup]
  have hkeep : ∀ n, 0 < n → n ≠ c → n ≠ p → (D.graft p es v c w).names n = D.names n := fun n hn hnc hnp => by
    have := hnames n
    rw [hshown n hn, hshown' n hn, hother n hn hnc, if_neg fun hc => hnp hc.2.symm,
      if_neg fun hc => hnp hc.2.symm] at this
    omega
  have hlist : ∀ n, 0 < n → (D.graft p es v c w).lists n + naming (D.rest p) n = D.lists n + naming es n := by
    intro n hn
    have := hlists n
    have hl : (D.graft p es v c w).listed n c = 0 := listed_zero (hrest ▸ hzero) hn
    rw [hl, listed_zero hzero hn] at this
    omega
  have hlistkeep : ∀ n, 0 < n → n ≠ c → (D.graft p es v c w).lists n = D.lists n := fun n hn hnc => by
    have := hlist n hn
    rw [hother n hn hnc] at this
    omega
  refine ⟨h.bound, fun n hn => ?_, fun q hq => ?_, fun n hn => ?_, fun n hn hfree => ?_, fun q hq hq0 => ?_,
    ⟨(hlive _ hcr.symm).mpr h.root.1, (graft_up ..).trans h.root.2⟩, ?_, fun d hd hroot => ?_,
    fun d hd hroot => ?_⟩
  · have hnp : n ≠ p := fun hnp => hn (hnp ▸ hp.1)
    exact (relist_entries_of_ne hnp ..).trans (h.flat n hn)
  · by_cases hqp : q = p
    · subst hqp
      exact ⟨D.up q, es, h.up_pos hp.1, relist_entries .., hes⟩
    · obtain ⟨r, rest, hpos, hr⟩ := h.shape q hq
      refine ⟨r, rest, hpos, ?_, hr.2⟩
      rw [← hr.1]
      exact relist_entries_of_ne hqp ..
  · have hpos := (h.bound n hn).1
    by_cases hnc : n = c
    · subst hnc
      have := hnames n
      rw [hshown n hpos, hshown' n hpos, if_neg fun hc => hcp hc.2.symm, if_neg fun hc => hcp hc.2.symm] at this
      have hn' : ((D.graft p es v n w).names n : Int) = w := by omega
      refine ⟨by omega, (graft_nlink_child ..).trans (hn'.symm.trans (toShort_small ?_).symm)⟩
      omega
    · by_cases hnp : n = p
      · subst hnp
        have := hnames n
        rw [hshown n hpos, hshown' n hpos, hother n hpos hnc] at this
        simp only [and_true] at this
        have hn' : ((D.graft n es v c w).names n : Int) = v := by
          by_cases hl : D.Live c <;> by_cases hw0 : 0 < w <;>
            simp only [hl, hw0, if_true, if_false] at this hparent <;> omega
        have hsmall : (D.graft n es v c w).names n ≤ 202 := by
          have := h.dir_names hp.1
          have : ninodes = 200 := rfl
          split at * <;> omega
        refine ⟨by omega, (graft_nlink_parent hcp ..).trans (hn'.symm.trans (toShort_small ?_).symm)⟩
        omega
      · rw [hkeep n hpos hnc hnp, graft_nlink_of_ne hnp hnc]
        exact h.count n hn
  · have hnc : n ≠ c := by
      rintro rfl
      exact absurd (hc.symm.trans hfree) (by decide)
    have hnp : n ≠ p := by
      rintro rfl
      exact absurd (hp.1.symm.trans hfree) (by decide)
    rw [hkeep n hn hnc hnp]
    exact h.gone n hn hfree
  · by_cases hqc : q = c
    · rw [hqc, hrest]
      exact hzero
    · have hqp : q ≠ p := by
        rintro rfl
        rw [graft_nlink_parent hcp] at hq0
        omega
      rw [graft_nlink_of_ne hqp hqc] at hq0
      rw [graft_rest hqp]
      exact h.dead q hq hq0
  · rw [hlistkeep rootIno (by decide) hcr.symm]
    exact h.rootless
  · rw [graft_up]
    by_cases hdc : d = c
    · subst hdc
      have hwpos : 0 < w := by
        have := hd.2
        rwa [graft_nlink_child] at this
      have hr : (D.graft p es v d w).rest p = es := relist_rest ..
      rw [hup, listed_live ((hlive p hcp.symm).mpr hp), hr]
      exact hnew hwpos
    · have hd := (hlive d hdc).mp hd
      have hhome := h.home d hd hroot
      have hdpos := hdir d hd.1
      have huc : D.up d ≠ c := by
        intro huc
        rw [huc, listed_zero hzero hdpos] at hhome
        exact absurd hhome (Nat.lt_irrefl 0)
      by_cases hdp : D.up d = p
      · have hr : (D.graft p es v c w).rest p = es := relist_rest ..
        rw [hdp] at hhome ⊢
        rw [listed_live ((hlive p hcp.symm).mpr hp), hr, hother d hdpos hdc, ← listed_live hp]
        exact hhome
      · have hl : (D.graft p es v c w).listed d (D.up d) = D.listed d (D.up d) := by
          rw [listed, graft_rest hdp]
          exact if_congr (hlive _ huc) rfl rfl
        rw [hl]
        exact hhome
  · have hdpos := hdir d hd
    by_cases hdc : d = c
    · subst hdc
      have := hlist d hdpos
      have := h.lists_le d
      omega
    · rw [hlistkeep d hdpos hdc]
      exact h.sole d hd hroot

end Graft

end Disk

end Xv6.Files
