import Mathlib.Logic.Function.Basic
import Mathlib.Data.List.Basic

/-! `main` of `init.c` up to the first shell, with `gets`, `strlen` and `strcmp` of `ulib.c` and
`consoleread` for one byte at a time. -/

namespace Xv6.Login
open Function

abbrev Byte := BitVec 8

/-- A byte in the buffer of the console: `consoleintr` drops zeros, and turns a carriage return
into a newline. -/
structure ConsoleByte where
  val : Byte
  ne_zero : val ≠ 0
  ne_cr : val ≠ 13
  deriving DecidableEq

def newline : Byte := 10
def carriageReturn : Byte := 13
/-- `C('D')` -/
def endOfFile : Byte := 4

def size : Nat := 1000

/-- A local array of `main`, with the indices written so far, the last one first. -/
structure Arr where
  cell : Int → Byte
  writes : List Int

def Arr.set (a : Arr) (i : Int) (b : Byte) : Arr := ⟨update a.cell i b, i :: a.writes⟩

def Arr.InBounds (a : Arr) : Prop := ∀ i ∈ a.writes, 0 ≤ i ∧ i < size

/-- A string of the program text. -/
structure Literal where
  bytes : List Byte
  no_zero : 0 ∉ bytes

/-- `gets` after the prompt: the array, and the input that is left; `none` while `read` waits for
the console. `read` returns 0 at an end of file. -/
def getsLoop (max : Nat) : List ConsoleByte → Arr → Nat → Arr × Option (List ConsoleByte)
  | [], a, i => if i + 1 < max then (a, none) else (a.set i 0, some [])
  | c :: cs, a, i =>
    if i + 1 < max then
      if c.val = endOfFile then (a.set i 0, some cs)
      else if c.val = newline ∨ c.val = carriageReturn then
        ((a.set i c.val).set (i + 1 : Nat) 0, some cs)
      else getsLoop max cs (a.set i c.val) (i + 1)
    else (a.set i 0, some (c :: cs))

def gets (a : Arr) (max : Nat) (cs : List ConsoleByte) : Arr × Option (List ConsoleByte) :=
  getsLoop max cs a 0

def strlen (a : Arr) : Nat :=
  ((List.range size).find? (fun n : Nat => a.cell n = 0)).getD size

/-- `strcmp` of the string from index `i` on with a string of the program text. -/
def strcmp (a : Arr) : Nat → List Byte → Int
  | i, [] => (a.cell i).toNat
  | i, b :: bs =>
    if a.cell i ≠ 0 ∧ a.cell i = b then strcmp a (i + 1) bs
    else (a.cell i).toNat - b.toNat

/-- `a[strlen(a) - 1] = '\0'`; the length is a `uint`, and the address wraps around. -/
def chop (a : Arr) : Arr := a.set (strlen a - 1 : Int) 0

inductive Outcome
  /-- `init: starting sh` -/
  | shell
  /-- `while(1);` -/
  | locked
  /-- blocked in `read` -/
  | waiting
  deriving DecidableEq, Repr

/-- One round of the loop: the input that is left at the username prompt, and at the password
prompt if it is shown. -/
structure Attempt where
  username : List ConsoleByte
  password : Option (List ConsoleByte)
  deriving DecidableEq

structure Result where
  outcome : Outcome
  username : Arr
  password : Arr
  attempts : List Attempt

/-- The loop with `n` attempts left. -/
def loop (user pass : Literal) : Nat → List ConsoleByte → Arr → Arr → List Attempt → Result
  | 0, _, u, p, ats => ⟨.locked, u, p, ats⟩
  | n + 1, cs, u, p, ats =>
    match gets u size cs with
    | (u, none) => ⟨.waiting, u, p, ats ++ [⟨cs, none⟩]⟩
    | (u, some rest) =>
      let u := chop u
      if strcmp u 0 user.bytes ≠ 0 then loop user pass n rest u p (ats ++ [⟨cs, none⟩])
      else
        match gets p size rest with
        | (p, none) => ⟨.waiting, u, p, ats ++ [⟨cs, some rest⟩]⟩
        | (p, some rest') =>
          let p := chop p
          if strcmp p 0 pass.bytes = 0 then ⟨.shell, u, p, ats ++ [⟨cs, some rest⟩]⟩
          else loop user pass n rest' u p (ats ++ [⟨cs, some rest⟩])

/-- `main` with uninitialised arrays. -/
def main (user pass : Literal) (cs : List ConsoleByte) (u p : Int → Byte) : Result :=
  loop user pass 3 cs ⟨u, []⟩ ⟨p, []⟩ []

/-! ### Lines -/

/-- How the first line of the input ends: by a newline, by an end of file, or not yet. -/
inductive Line
  | ended (l : List Byte) (rest : List ConsoleByte)
  | eof (l : List Byte) (rest : List ConsoleByte)
  | pending (l : List Byte)

def Line.cons (b : Byte) : Line → Line
  | .ended l rest => .ended (b :: l) rest
  | .eof l rest => .eof (b :: l) rest
  | .pending l => .pending (b :: l)

def firstLine : List ConsoleByte → Line
  | [] => .pending []
  | c :: cs =>
    if c.val = endOfFile then .eof [] cs
    else if c.val = newline then .ended [] cs
    else (firstLine cs).cons c.val

/-- The whole line entered, once it is there. -/
def wholeLine (cs : List ConsoleByte) : Option (List Byte) :=
  match firstLine cs with
  | .ended l _ => some l
  | .eof l _ => some l
  | .pending _ => none

/-- The right name and the right password are entered. -/
def Attempt.Correct (user pass : Literal) (at' : Attempt) : Prop :=
  wholeLine at'.username = some user.bytes ∧
    ∃ rest, at'.password = some rest ∧ wholeLine rest = some pass.bytes

/-- What is asked of the login: a shell for the right name and password only, and no write outside
the arrays. -/
def Result.Sound (user pass : Literal) (r : Result) : Prop :=
  (r.outcome = .shell ↔ ∃ at' ∈ r.attempts, at'.Correct user pass) ∧
    r.username.InBounds ∧ r.password.InBounds

variable {user pass : Literal} {a a' u p : Arr} {b : Byte} {cs rest : List ConsoleByte}
  {l s : List Byte} {ats : List Attempt} {c u₀ p₀ : Int → Byte} {i n : Nat}

/-! ### What `gets` leaves in the array -/

theorem Arr.set_self (a : Arr) (i : Int) (b : Byte) : (a.set i b).cell i = b := update_self _ _ _

theorem Arr.set_of_ne {i j : Int} (h : j ≠ i) : (a.set i b).cell j = a.cell j := update_of_ne h _ _

theorem Arr.InBounds.set (h : a.InBounds) (hi : i < size) : (a.set i b).InBounds := by
  intro x hx
  rcases List.mem_cons.mp hx with rfl | hx
  · exact ⟨Int.natCast_nonneg i, by exact_mod_cast hi⟩
  · exact h x hx

/-- From index `i` on the array holds the string `s`. -/
def Arr.Holds (a : Arr) (i : Nat) (s : List Byte) : Prop :=
  (∀ j (hj : j < s.length), a.cell (i + j : Nat) = s[j]) ∧ a.cell (i + s.length : Nat) = 0

/-- The bytes `s` and a zero were written from index `i` on. -/
structure Wrote (a a' : Arr) (i : Nat) (s : List Byte) : Prop where
  before : ∀ j : Nat, j < i → a'.cell j = a.cell j
  holds : a'.Holds i s
  bounds : a.InBounds → a'.InBounds

theorem Wrote.nil (hi : i < size) : Wrote a (a.set i 0) i [] where
  before j hj := Arr.set_of_ne (by omega)
  holds := ⟨by simp, Arr.set_self a i 0⟩
  bounds h := h.set hi

theorem Wrote.cons (h : Wrote (a.set i b) a' (i + 1) s) (hi : i < size) :
    Wrote a a' i (b :: s) where
  before j hj := (h.before j (by omega)).trans (Arr.set_of_ne (by omega))
  holds := by
    refine ⟨fun j hj => ?_, ?_⟩
    · cases j with
      | zero => exact (h.before i (by omega)).trans (Arr.set_self a i b)
      | succ j =>
        rw [show i + (j + 1) = i + 1 + j by omega]
        exact h.holds.1 j (Nat.lt_of_succ_lt_succ hj)
    · rw [List.length_cons, show i + (s.length + 1) = i + 1 + s.length by omega]
      exact h.holds.2
  bounds ha := h.bounds (ha.set hi)

/-- The text of the line with what `gets` stores of its end. -/
def Line.stored : Line → List Byte
  | .ended l _ => l ++ [newline]
  | .eof l _ => l
  | .pending l => l

def Line.text : Line → List Byte
  | .ended l _ => l
  | .eof l _ => l
  | .pending l => l

def Line.after : Line → Option (List ConsoleByte)
  | .ended _ rest => some rest
  | .eof _ rest => some rest
  | .pending _ => none

@[simp] theorem Line.text_cons (b : Byte) (l : Line) : (l.cons b).text = b :: l.text := by
  cases l <;> rfl

@[simp] theorem Line.after_cons (b : Byte) (l : Line) : (l.cons b).after = l.after := by
  cases l <;> rfl

@[simp] theorem Line.stored_cons (b : Byte) (l : Line) : (l.cons b).stored = b :: l.stored := by
  cases l <;> rfl

/-- `gets` on a line that fits into the array. -/
theorem getsLoop_spec (cs : List ConsoleByte) (hlt : i + (firstLine cs).text.length + 1 < size) :
    ∃ a', getsLoop size cs a i = (a', (firstLine cs).after) ∧ (a.InBounds → a'.InBounds) ∧
      ((firstLine cs).after ≠ none → Wrote a a' i (firstLine cs).stored) := by
  induction cs generalizing a i with
  | nil =>
    rw [getsLoop, if_pos (by rw [firstLine] at hlt; exact hlt)]
    exact ⟨a, rfl, id, fun h => absurd rfl h⟩
  | cons c cs ih =>
    have hi : i + 1 < size := by omega
    rw [firstLine] at hlt ⊢
    rw [getsLoop, if_pos hi]
    by_cases he : c.val = endOfFile
    · rw [if_pos he, if_pos he]
      exact ⟨_, rfl, fun h => h.set (by omega), fun _ => .nil (by omega)⟩
    · rw [if_neg he, if_neg he] at *
      by_cases hn : c.val = newline
      · rw [if_pos hn, if_pos (.inl hn)]
        have hw : Wrote a ((a.set i c.val).set (i + 1 : Nat) 0) i [newline] := by
          rw [hn]
          exact .cons (.nil hi) (by omega)
        exact ⟨_, rfl, hw.bounds, fun _ => hw⟩
      · rw [if_neg hn] at *
        rw [if_neg (fun h => h.elim hn c.ne_cr)]
        rw [Line.text_cons, List.length_cons] at hlt
        obtain ⟨a', hg, hb, hw⟩ := ih (a := a.set i c.val) (i := i + 1) (by omega)
        rw [Line.after_cons, Line.stored_cons]
        exact ⟨a', hg, fun h => hb (h.set (by omega)), fun hr => (hw hr).cons (by omega)⟩

/-! ### Strings -/

theorem zero_not_mem_firstLine (cs : List ConsoleByte) : 0 ∉ (firstLine cs).stored := by
  induction cs with
  | nil => exact List.not_mem_nil
  | cons c cs ih =>
    rw [firstLine]
    split
    · exact List.not_mem_nil
    · split
      · exact fun h => absurd (List.mem_singleton.mp h) (by decide)
      · rw [Line.stored_cons]
        exact fun h => (List.mem_cons.mp h).elim (fun e => c.ne_zero e.symm) ih

theorem strlen_eq (h : a.Holds 0 s) (h0 : 0 ∉ s) (hlt : s.length < size) : strlen a = s.length := by
  rw [strlen]
  have hfind : (List.range size).find? (fun n : Nat => a.cell n = 0) = some s.length := by
    refine List.find?_range_eq_some.mpr ⟨?_, List.mem_range.mpr hlt, fun j hj => ?_⟩
    · have := h.2
      rw [Nat.zero_add] at this
      exact decide_eq_true this
    · have := h.1 j hj
      rw [Nat.zero_add] at this
      rw [this]
      have hne : s[j] ≠ 0 := fun e => h0 (e ▸ List.getElem_mem hj)
      simpa using hne
  rw [hfind, Option.getD_some]

theorem strcmp_eq_zero (q : List Byte) (hq : 0 ∉ q) (h : a.Holds i s) (h0 : 0 ∉ s) :
    strcmp a i q = 0 ↔ s = q := by
  induction q generalizing i s with
  | nil =>
    rw [strcmp]
    cases s with
    | nil =>
      have := h.2
      simp only [List.length_nil, Nat.add_zero] at this
      simp [this]
    | cons b s =>
      have := h.1 0 (Nat.zero_lt_succ _)
      rw [Nat.add_zero, List.getElem_cons_zero] at this
      have hb : b ≠ 0 := fun e => h0 (e ▸ List.mem_cons_self)
      have hb : b.toNat ≠ 0 := fun e => hb (BitVec.eq_of_toNat_eq e)
      rw [this]
      simp
      omega
  | cons d q ih =>
    obtain ⟨hd, hq'⟩ := not_or.mp (fun hm => hq (List.mem_cons.mpr hm))
    rw [strcmp]
    cases s with
    | nil =>
      have := h.2
      simp only [List.length_nil, Nat.add_zero] at this
      rw [if_neg (fun hc => hc.1 this), this]
      have : d.toNat ≠ 0 := fun e => hd (BitVec.eq_of_toNat_eq e.symm)
      simp
      omega
    | cons b s =>
      have hcell := h.1 0 (Nat.zero_lt_succ _)
      rw [Nat.add_zero, List.getElem_cons_zero] at hcell
      obtain ⟨hb, h0'⟩ := not_or.mp (fun hm => h0 (List.mem_cons.mpr hm))
      rw [hcell]
      by_cases hbd : b = d
      · subst hbd
        have hi : a.Holds (i + 1) s := by
          refine ⟨fun j hj => ?_, ?_⟩
          · rw [show i + 1 + j = i + (j + 1) by omega]
            exact h.1 (j + 1) (Nat.succ_lt_succ hj)
          · rw [show i + 1 + s.length = i + (b :: s).length by rw [List.length_cons]; omega]
            exact h.2
        rw [if_pos ⟨fun e => hb e.symm, rfl⟩]
        exact (ih hq' hi h0').trans (by simp)
      · rw [if_neg (fun hc => hbd hc.2)]
        have : b.toNat ≠ d.toNat := fun e => hbd (BitVec.eq_of_toNat_eq e)
        simp [hbd]
        omega

theorem chop_holds (h : a.Holds 0 s) (h0 : 0 ∉ s) (hlt : s.length < size) (hne : s ≠ []) :
    (chop a).Holds 0 s.dropLast ∧ (a.InBounds → (chop a).InBounds) := by
  have hpos := List.length_pos_iff.mpr hne
  rw [chop, strlen_eq h h0 hlt, show ((s.length : Int) - 1) = (s.length - 1 : Nat) by omega]
  refine ⟨⟨fun j hj => ?_, ?_⟩, fun ha => ha.set (by omega)⟩
  · rw [List.length_dropLast] at hj
    rw [Arr.set_of_ne (by omega), List.getElem_dropLast]
    exact h.1 j (by omega)
  · rw [List.length_dropLast, Nat.zero_add]
    exact Arr.set_self a _ 0

/-! ### Prompts -/

/-- The line fits into the array, and if it ends at an end of file, then it is not empty, and it is
not the text `t`, with or without a last byte. -/
def Harmless (t : List Byte) (cs : List ConsoleByte) : Prop :=
  (firstLine cs).text.length + 1 < size ∧
    ∀ l rest, firstLine cs = .eof l rest → l ≠ [] ∧ l ≠ t ∧ l.dropLast ≠ t

theorem wholeLine_eq (h : (firstLine cs).after = some rest) :
    wholeLine cs = some (firstLine cs).text := by
  rw [wholeLine]
  cases hl : firstLine cs with
  | pending l =>
    rw [hl] at h
    cases h
  | _ => rfl

/-- What a prompt makes of a harmless line. -/
theorem prompt_spec (t : Literal) (h : Harmless t.bytes cs) :
    ∃ a', gets a size cs = (a', (firstLine cs).after) ∧ (a.InBounds → a'.InBounds) ∧
      ∀ rest, (firstLine cs).after = some rest → (a.InBounds → (chop a').InBounds) ∧
        (strcmp (chop a') 0 t.bytes = 0 ↔ wholeLine cs = some t.bytes) := by
  obtain ⟨a', hg, hb, hw⟩ := getsLoop_spec (a := a) (i := 0) cs (by rw [Nat.zero_add]; exact h.1)
  refine ⟨a', hg, hb, fun rest hr => ?_⟩
  have hw := hw (by rw [hr]; simp)
  have h0 := zero_not_mem_firstLine cs
  have hlt := h.1
  rw [wholeLine_eq hr, Option.some.injEq]
  cases hl : firstLine cs with
  | pending l =>
    rw [hl] at hr
    cases hr
  | ended l rest' =>
    rw [hl] at hw h0 hlt
    simp only [Line.stored, Line.text] at hw h0 hlt ⊢
    have hc := chop_holds hw.holds h0 (by simpa using hlt) (by simp)
    rw [List.dropLast_concat] at hc
    exact ⟨fun ha => hc.2 (hb ha), strcmp_eq_zero t.bytes t.no_zero hc.1
      fun hm => h0 (List.mem_append_left _ hm)⟩
  | eof l rest' =>
    obtain ⟨hne, hlt', hdrop⟩ := h.2 l rest' hl
    rw [hl] at hw h0 hlt
    simp only [Line.stored, Line.text] at hw h0 hlt ⊢
    have hc := chop_holds hw.holds h0 (by omega) hne
    refine ⟨fun ha => hc.2 (hb ha), ?_⟩
    rw [strcmp_eq_zero t.bytes t.no_zero hc.1 fun hm => h0 (List.dropLast_subset _ hm)]
    exact iff_of_false hdrop hlt'

/-- The lines that are read with `n` attempts left are harmless. -/
def Clean (user pass : Literal) : Nat → List ConsoleByte → Prop
  | 0, _ => True
  | n + 1, cs => Harmless user.bytes cs ∧ ∀ rest, (firstLine cs).after = some rest →
    if wholeLine cs = some user.bytes then Harmless pass.bytes rest ∧
      ∀ rest', (firstLine rest).after = some rest' →
        wholeLine rest = some pass.bytes ∨ Clean user pass n rest'
    else Clean user pass n rest

theorem loop_sound (h : Clean user pass n cs) (hu : u.InBounds) (hp : p.InBounds)
    (hats : ∀ at' ∈ ats, ¬at'.Correct user pass) :
    (loop user pass n cs u p ats).Sound user pass := by
  have hnone {ats' : List Attempt} {o : Outcome} (ho : o ≠ .shell)
      (hno : ∀ x ∈ ats', ¬x.Correct user pass) : o = .shell ↔ ∃ x ∈ ats', x.Correct user pass :=
    iff_of_false ho fun hx => hx.elim fun x hx => hno x hx.1 hx.2
  induction n generalizing cs u p ats with
  | zero => exact ⟨hnone (by rintro ⟨⟩) hats, hu, hp⟩
  | succ n ih =>
    have hmore {at' : Attempt} (hno : ¬at'.Correct user pass) :
        ∀ x ∈ ats ++ [at'], ¬x.Correct user pass := by
      intro x hx
      rcases List.mem_append.mp hx with hx | hx
      · exact hats x hx
      · exact List.mem_singleton.mp hx ▸ hno
    obtain ⟨hline, hnext⟩ := h
    obtain ⟨u', hg, hb, hs⟩ := prompt_spec (a := u) user hline
    rw [loop, hg]
    cases hr : (firstLine cs).after with
    | none => exact ⟨hnone (by simp) (hmore fun hc => by obtain ⟨_, _, hx, _⟩ := hc; cases hx), hb hu, hp⟩
    | some rest =>
      obtain ⟨hbu, heq⟩ := hs rest hr
      have hnext := hnext rest hr
      dsimp only
      by_cases hname : wholeLine cs = some user.bytes
      · rw [if_pos hname] at hnext
        rw [if_neg (not_not_intro (heq.mpr hname))]
        obtain ⟨p', hg', hb', hs'⟩ := prompt_spec (a := p) pass hnext.1
        rw [hg']
        cases hr' : (firstLine rest).after with
        | none =>
          refine ⟨hnone (by simp) (hmore fun hc => ?_), hbu hu, hb' hp⟩
          obtain ⟨_, rest₁, hx, hw⟩ := hc
          cases hx
          rw [wholeLine] at hw
          cases hl : firstLine rest with
          | pending l =>
            rw [hl] at hw
            cases hw
          | ended l r | eof l r =>
            rw [hl] at hr'
            cases hr'
        | some rest' =>
          obtain ⟨hbp, heq'⟩ := hs' rest' hr'
          dsimp only
          by_cases hpass : wholeLine rest = some pass.bytes
          · rw [if_pos (heq'.mpr hpass)]
            exact ⟨iff_of_true rfl ⟨_, List.mem_append_right _ (List.mem_singleton.mpr rfl), hname,
              rest, rfl, hpass⟩, hbu hu, hbp hp⟩
          · rw [if_neg (fun hz => hpass (heq'.mp hz))]
            refine ih ((hnext.2 rest' hr').resolve_left hpass) (hbu hu) (hbp hp) (hmore fun hc => ?_)
            obtain ⟨_, rest₁, hx, hw⟩ := hc
            cases hx
            exact hpass hw
      · rw [if_neg hname] at hnext
        rw [if_pos (fun hz => hname (heq.mp hz))]
        exact ih hnext (hbu hu) hp (hmore fun hc => hname hc.1)

/-- If every line that `init` reads fits and none of them is cut short by an end of file in a way
that matters, then the login is right. -/
theorem main_sound (h : Clean user pass 3 cs) : (main user pass cs u₀ p₀).Sound user pass :=
  loop_sound h nofun nofun (by simp)

/-! An end of file right after a name with one byte too many, and right at the first prompt. -/

def typed (b : Byte) (h : b ≠ 0 ∧ b ≠ 13) : ConsoleByte := ⟨b, h.1, h.2⟩

def nameA : Literal := ⟨[97], by decide⟩
def passB : Literal := ⟨[98], by decide⟩

/-- `a`, newline, `b`, newline. -/
def proper : List ConsoleByte :=
  [typed 97 (by decide), typed 10 (by decide), typed 98 (by decide), typed 10 (by decide)]

theorem main_sound_proper :
    (main nameA passB proper (fun _ => 0) (fun _ => 0)).Sound nameA passB := by
  refine main_sound ⟨⟨by decide, by rintro _ _ ⟨⟩⟩, fun rest hr => ?_⟩
  rw [if_pos (by decide)]
  cases hr
  exact ⟨⟨by decide, by rintro _ _ ⟨⟩⟩, fun rest' _ => .inl (by decide)⟩

/-- `ax`, end of file, `b`, newline. -/
def overlong : List ConsoleByte :=
  [typed 97 (by decide), typed 120 (by decide), typed 4 (by decide), typed 98 (by decide),
    typed 10 (by decide)]

set_option maxRecDepth 2048 in
theorem main_unsound : ¬(main nameA passB overlong (fun _ => 0) (fun _ => 0)).Sound nameA passB ∧
    ¬(main nameA passB [typed 4 (by decide)] (fun _ => 0) (fun _ => 0)).Sound nameA passB := by
  refine ⟨fun h => ?_, fun h => ?_⟩
  · have hshell : (main nameA passB overlong (fun _ => 0) (fun _ => 0)).outcome = .shell := by
      decide
    have hats : (main nameA passB overlong (fun _ => 0) (fun _ => 0)).attempts =
        [⟨overlong, some (overlong.drop 3)⟩] := by decide
    obtain ⟨at', hat, hc, _⟩ := h.1.mp hshell
    rw [hats] at hat
    cases List.mem_singleton.mp hat
    exact absurd hc (by decide)
  · have := h.2.1 (-1) (by decide)
    omega

end Xv6.Login
