import AdvancedXv6.Disk.Content
import AdvancedXv6.Disk.Trunc

/-! Files as arrays of bytes: `readi`, `writei` and `itrunc` on inodes that are locked. -/

namespace Xv6.Disk
open Function Effect Bytes
variable {I : Nat → Prop} {s t u : Fs} {i j a c n off p q bn k : Nat} {x : Block} {src : Nat → UInt8}
  {io : Option (List UInt8)} {dev : Bool}

namespace Fs

/-- What an accepted `writei` does. -/
structure Written (I : Nat → Prop) (i : Nat) (src : Nat → UInt8) (off n : Nat) (s t : Fs) : Prop where
  held : Held I t
  node : ∀ j, j < ninodes → j ≠ i → t.node j = s.node j
  self : t.node i = { s.node i with addrs := (t.node i).addrs, size := max (s.node i).size (off + n) }
  kept : ∀ j p, I j → s.addr j p ≠ 0 → t.addr j p = s.addr j p
  others : ∀ j p, I j → j ≠ i → t.addr j p = s.addr j p
  tight : ∀ c, nmeta ≤ c → c < fsSize → t.bit c = true → s.bit c = true ∨ ∃ p, t.addr i p = c
  puts : Puts I i src off n s t
  filled : Filled i off n t
  disk : t.dinode i = t.ip i ∨ t.dinode i = s.dinode i ∧ off + n ≤ (s.node i).size
  dinode : ∀ j, j < ninodes → j ≠ i → t.dinode j = s.dinode j
  valid : t.valid = s.valid
  ref : t.ref = s.ref
  outstanding : t.outstanding = s.outstanding
  fits : ∀ j, (s.ip j).Fits → (t.ip j).Fits

/-- The loop of `writei` when the file does not grow. -/
theorem Grows.written (h : Grows I i s t) (hputs : Puts I i src off n s t) (hfilled : Filled i off n t) (hi : I i)
    (hle : off + n ≤ (s.node i).size) : Written I i src off n s t where
  held := h.held
  node := h.node
  self := by
    rw [max_eq_left hle]
    exact h.fields
  kept := h.kept
  others := h.others
  tight := h.tight
  puts := hputs
  filled := hfilled
  disk := .inr ⟨h.dinode i (h.held.number i hi), hle⟩
  dinode j hj _ := h.dinode j hj
  valid := h.valid
  ref := h.ref
  outstanding := h.outstanding
  fits := h.fits

/-- The size is no part of what holds the blocks. -/
theorem resized_same (hi : i < ninodes) (hv : t.valid i = true) :
    Same I t ((t.setIp i fun d => { d with size := n }).updated i) := by
  obtain ⟨w, hw⟩ : ∃ w, w = t.setIp i fun d => { d with size := n } := ⟨_, rfl⟩
  have hvw : w.valid i = true := by rw [hw]; exact hv
  rw [← hw]
  refine ⟨fun j _ => ?_, fun a ha => ?_⟩
  · rw [updated_node hvw]
    by_cases hj : j = i
    · rw [hj, node_eq hvw, node_eq hv, hw, setIp_self]
    · rw [hw, setIp_node hj]
  · rw [stored_blk hi (.inr (Nat.le_trans bmapstart_le.2.1 ha)), hw]
    rfl

/-- The loop of `writei` and the update of the size. -/
theorem Grows.written_grown (h : Grows I i s t) (hputs : Puts I i src off n s t) (hfilled : Filled i off n t)
    (hi : I i) (hv : s.valid i = true) (hfit : (s.ip i).Fits) (hlt : (s.node i).size < off + n) (hmax : off + n < 2 ^ 32) :
    Written I i src off n s ((t.setIp i fun d => { d with size := off + n }).updated i) := by
  obtain ⟨w, hw⟩ : ∃ w, w = t.setIp i fun d => { d with size := off + n } := ⟨_, rfl⟩
  have hnum := h.held.number i hi
  have hvt : t.valid i = true := by rw [h.valid]; exact hv
  have hvw : w.valid i = true := by rw [hw]; exact hvt
  have hip : w.ip i = { t.ip i with size := off + n } := by rw [hw, setIp_self]
  have hfitw : (w.ip i).Fits := by
    have hfit' := h.fits i hfit
    rw [hip]
    exact ⟨hfit'.type, hfit'.major, hfit'.minor, hfit'.nlink, hmax, hfit'.addrs, hfit'.rest⟩
  have hnode : ∀ j, j ≠ i → (w.updated i).node j = t.node j := by
    intro j hj
    rw [updated_node hvw, hw, setIp_node hj]
  have hself : (w.updated i).node i = { t.node i with size := off + n } := by
    rw [updated_node hvw, node_eq hvw, hip, node_eq hvt]
  have hsame : Same I t (w.updated i) := hw ▸ resized_same hnum hvt
  have hbit : ∀ c, c < fsSize → (w.updated i).bit c = t.bit c := by
    intro c hc
    rw [stored_bit hnum hc, hw, setIp_bit]
  have haddr : ∀ {j q}, I j → (w.updated i).addr j q = t.addr j q := fun hj => h.held.addr_same hsame hj _
  rw [← hw]
  constructor
  · exact h.held.same hsame hbit
  · intro j hj hne
    rw [hnode j hne, h.node j hj hne]
  · rw [hself, max_eq_right (Nat.le_of_lt hlt), h.fields]
  · intro j q hj hq
    rw [haddr hj, h.kept j q hj hq]
  · intro j q hj hne
    rw [haddr hj, h.others j q hj hne]
  · intro c hb hc hset
    rw [hbit c hc] at hset
    refine (h.tight c hb hc hset).imp_right fun hp => hp.imp fun q hq => ?_
    rw [haddr hi, hq]
  · intro j k hj
    rw [h.held.byte_same hsame hj, hputs j k hj]
  · intro k hlow hhigh
    rw [haddr hi]
    exact hfilled k hlow hhigh
  · exact .inl (stored_self hfitw)
  · intro j hj hne
    rw [stored_dinode hne, ← h.dinode j hj, hw]
    rfl
  · rw [← h.valid, hw]
    rfl
  · rw [← h.ref, hw]
    rfl
  · rw [← h.outstanding, hw]
    rfl
  · intro j hj
    by_cases hne : j = i
    · subst hne
      exact hfitw
    · have hipj : (w.updated i).ip j = t.ip j := by
        rw [hw]
        exact update_of_ne hne ..
      rw [hipj]
      exact h.fits j hj

end Fs

/-- The calls on which `writei` goes on. -/
def Accepts (size off n : Nat) : Prop := off ≤ size ∧ off + n ≤ maxFile * bsize

instance (size off n : Nat) : Decidable (Accepts size off n) := inferInstanceAs (Decidable (_ ∧ _))

section Spec
variable {E : Panic → Fs → Prop} (hE : ∀ t, t.Full → E .balloc t) (hs : s.Held I) (hout : 1 ≤ s.outstanding)
  (hi : I i) (hv : s.valid i = true) (htype : (s.ip i).type ≠ tDev) (hsize : (s.ip i).size ≤ maxFile * bsize)
  (hoff : off < 2 ^ 32) (hn : n < 2 ^ 32)
include hE hs hout hi hv htype hoff hn

theorem wp_writei {Q : Bool → Fs → Prop} (hfit : (s.ip i).Fits) (hno : ¬Accepts (s.ip i).size off n → Q false s)
    (hyes : Accepts (s.ip i).size off n → ∀ t, s.Written I i src off n t → Q true t) :
    wp (writei i src off n dev) s Q E := by
  have hcap : maxFile * bsize = 71680 := rfl
  unfold writei
  rw [wp_bind, wp_get]
  dsimp only
  rw [wp_ite]
  refine ⟨fun hdev => absurd hdev htype, fun _ => ?_⟩
  rw [wp_ite]
  refine ⟨fun hbad => ?_, fun hgood => ?_⟩
  · rw [wp_pure]
    refine hno fun hacc => ?_
    unfold Accepts at hacc
    omega
  rw [wp_ite]
  refine ⟨fun hlarge => ?_, fun hsmall => ?_⟩
  · rw [wp_pure]
    refine hno fun hacc => ?_
    unfold Accepts at hacc
    omega
  have hacc : Accepts (s.ip i).size off n := by
    unfold Accepts
    omega
  have hmax := hacc.2
  rw [wp_bind]
  apply wp_writeLoop hE hs hout hi hv (Nat.le_refl n) hmax
  intro t hg hputs hfilled
  have hnode := Fs.node_eq hv
  have hsizet : (t.ip i).size = (s.ip i).size := by
    have hvt : t.valid i = true := by rw [hg.valid]; exact hv
    rw [← Fs.node_eq hvt, hg.fields, hnode]
  rw [wp_bind, wp_get, wp_ite, hsizet]
  refine ⟨fun hgrow => ?_, fun hstay => ?_⟩
  · unfold setIp
    rw [wp_bind, wp_modify, wp_bind]
    refine wp_iupdate (hg.outstanding ▸ hout) ?_
    rw [wp_pure]
    exact hyes hacc _ (hg.written_grown hputs hfilled hi hv hfit (by rw [hnode]; exact hgrow.2) (by omega))
  · rw [wp_pure]
    refine hyes hacc t (hg.written hputs hfilled hi ?_)
    have hle := hacc.1
    rw [hnode]
    omega

end Spec

/-! ### Refinement -/

/-- The content of an inode. -/
def Fs.content (s : Fs) (i : Nat) : List UInt8 := (List.range (s.node i).size).map (s.byte i)

/-- A call on an inode that the caller has locked. -/
inductive Call
  | writei (i : Nat) (src : Nat → UInt8) (off n : UInt32)
  | readi (i : Nat) (off n : UInt32)
  | itrunc (i : Nat)

inductive Answer
  | wrote (ok : Bool)
  | read (bytes : Option (List UInt8))
  | truncated

namespace Call

def inode : Call → Nat
  | writei i .. => i
  | readi i .. => i
  | itrunc i => i

/-- The inode is not a device, so the last argument of the call does not matter. -/
def run : Call → M Answer
  | writei i src off n => .wrote <$> Disk.writei i src off.toNat n.toNat false
  | readi i off n => .read <$> Disk.readi i off.toNat n.toNat none
  | itrunc i => (fun _ => .truncated) <$> Disk.itrunc i

/-- The same call on arrays of bytes. -/
def spec (a : Nat → List UInt8) : Call → Answer × (Nat → List UInt8)
  | writei i src off n =>
    if Accepts (a i).length off.toNat n.toNat then
      (.wrote true, update a i (overlay (a i) off.toNat ((List.range n.toNat).map src)))
    else (.wrote false, a)
  | readi i off n =>
    if off.toNat ≤ (a i).length ∧ off.toNat + n.toNat < 2 ^ 32 then
      (.read (some ((a i |>.drop off.toNat).take (min n.toNat ((a i).length - off.toNat)))), a)
    else (.read none, a)
  | itrunc i => (.truncated, update a i [])

end Call

/-- The inodes in `I` are files and directories that the kernel has in memory and locked, in a transaction. -/
structure Fs.Open (I : Nat → Prop) (s : Fs) : Prop where
  held : Held I s
  valid : ∀ i, I i → s.valid i = true
  type : ∀ i, I i → (s.ip i).type = tFile ∨ (s.ip i).type = tDir
  fits : ∀ i, I i → (s.ip i).Fits
  size : ∀ i, I i → (s.ip i).size ≤ maxFile * bsize
  outstanding : 1 ≤ s.outstanding

namespace Fs

theorem content_congr (hnode : (t.node i).size = (s.node i).size) (hbyte : ∀ k, t.byte i k = s.byte i k) :
    t.content i = s.content i := by
  unfold content
  rw [hnode]
  exact List.map_congr_left fun k _ => hbyte k

/-- The inode keeps its type, so it is still open. -/
theorem Open.next (h : Open I s) (hheld : Held I t) (hvalid : t.valid = s.valid) (hout : t.outstanding = s.outstanding)
    (hfits : ∀ i, I i → (t.ip i).Fits)
    (hip : ∀ i, I i → (t.node i).type = (s.node i).type ∧ (t.node i).size ≤ maxFile * bsize) : Open I t := by
  have hv : ∀ i, I i → t.valid i = true := by
    intro i hi
    rw [hvalid]
    exact h.valid i hi
  refine ⟨hheld, hv, fun i hi => ?_, hfits, fun i hi => ?_, hout ▸ h.outstanding⟩
  · have htype := (hip i hi).1
    rw [node_eq (hv i hi), node_eq (h.valid i hi)] at htype
    rw [htype]
    exact h.type i hi
  · rw [← node_eq (hv i hi)]
    exact (hip i hi).2

theorem Open.node_size (h : Open I s) (hi : I i) : (s.node i).size ≤ maxFile * bsize := by
  rw [node_eq (h.valid i hi)]
  exact h.size i hi

theorem Open.grows (h : Open I s) (hi : I i) (hg : Grows I i s t) (hk : Keeps I s t) :
    Open I t ∧ ∀ j, I j → t.content j = s.content j := by
  have hfields : ∀ j, I j → (t.node j).type = (s.node j).type ∧ (t.node j).size = (s.node j).size := by
    intro j hj
    by_cases hji : j = i
    · subst hji
      rw [hg.fields]
      exact ⟨rfl, rfl⟩
    · rw [hg.node j (h.held.number j hj) hji]
      exact ⟨rfl, rfl⟩
  refine ⟨h.next hg.held hg.valid hg.outstanding (fun j hj => hg.fits j (h.fits j hj)) fun j hj => ?_, fun j hj => ?_⟩
  · refine ⟨(hfields j hj).1, ?_⟩
    rw [(hfields j hj).2]
    exact h.node_size hj
  · exact content_congr (hfields j hj).2 fun k => hk j k hj

theorem Open.written (h : Open I s) (hi : I i) (hacc : Accepts (s.ip i).size off n) (hw : Written I i src off n s t) :
    Open I t ∧ ∀ j, I j →
      t.content j = update s.content i (overlay (s.content i) off ((List.range n).map src)) j := by
  have hself : (t.node i).type = (s.node i).type ∧ (t.node i).size = max (s.node i).size (off + n) := by
    rw [hw.self]
    exact ⟨rfl, rfl⟩
  rw [← node_eq (h.valid i hi)] at hacc
  refine ⟨h.next hw.held hw.valid hw.outstanding (fun j hj => hw.fits j (h.fits j hj)) fun j hj => ?_, fun j hj => ?_⟩
  · by_cases hji : j = i
    · subst hji
      refine ⟨hself.1, ?_⟩
      rw [hself.2]
      exact max_le (h.node_size hj) hacc.2
    · rw [hw.node j (h.held.number j hj) hji]
      exact ⟨rfl, h.node_size hj⟩
  · by_cases hji : j = i
    · subst hji
      rw [update_self]
      unfold content
      rw [overlay_range hacc.1, hself.2]
      refine List.map_congr_left fun k _ => (hw.puts j k hj).trans ?_
      exact if_congr (and_iff_right rfl) rfl rfl
    · rw [update_of_ne hji]
      refine content_congr (by rw [hw.node j (h.held.number j hj) hji]) fun k => ?_
      exact (hw.puts j k hj).trans (if_neg fun hand => hji hand.1)

theorem Open.truncated (h : Open I s) (hi : I i) (ht : Truncated I i s t) :
    Open I t ∧ ∀ j, I j → t.content j = update s.content i [] j := by
  have hvt : t.valid i = true := by
    rw [ht.valid]
    exact h.valid i hi
  have hself : (t.node i).type = (s.node i).type ∧ (t.node i).size = 0 := by
    rw [node_eq hvt, node_eq (h.valid i hi), ht.self]
    exact ⟨rfl, rfl⟩
  refine ⟨h.next (ht.held h.held hi) ht.valid ht.outstanding (fun j hj => ?_) fun j hj => ?_, fun j hj => ?_⟩
  · by_cases hji : j = i
    · subst hji
      have hfit := h.fits j hj
      rw [ht.self]
      exact ⟨hfit.type, hfit.major, hfit.minor, hfit.nlink, Nat.two_pow_pos 32, fun _ => Nat.two_pow_pos 32, fun _ _ => rfl⟩
    · rw [ht.ip j hji]
      exact h.fits j hj
  · by_cases hji : j = i
    · subst hji
      refine ⟨hself.1, ?_⟩
      rw [hself.2]
      exact Nat.zero_le _
    · rw [ht.node j hj hji]
      exact ⟨rfl, h.node_size hj⟩
  · by_cases hji : j = i
    · subst hji
      rw [update_self]
      unfold content
      rw [hself.2]
      rfl
    · rw [update_of_ne hji]
      exact content_congr (by rw [ht.node j hj hji]) fun k => ht.byte j k hj hji

end Fs

end Xv6.Disk
