import AdvancedXv6.Lib.Simulate
import AdvancedXv6.Shell.Grammar
import Mathlib.Data.List.TakeWhile

/-! The tokens of a text, and `gettoken` and `peek` on memory that follow them. -/

namespace Xv6.Shell
open Effect

def Sym.chars (s : Sym) : List UInt8 := if s = .append then [Shell.greater, Shell.greater] else [s.code]

/-- The tokens of a text, with whitespace around them; a word goes as far as it can, and so does `>>`. -/
inductive Spells : List (Token (List UInt8)) → List UInt8 → Prop
  | nil : Spells [] []
  | blank {ts : List (Token (List UInt8))} {text : List UInt8} {c : UInt8} (hc : c ∈ whitespace)
    (h : Spells ts text) : Spells ts (c :: text)
  | sym {ts : List (Token (List UInt8))} {text : List UInt8} (s : Sym)
    (hs : s = .greater → text.head? ≠ some Shell.greater) (h : Spells ts text) :
    Spells (.sym s :: ts) (s.chars ++ text)
  | word {ts : List (Token (List UInt8))} {text w : List UInt8} (hne : w ≠ []) (hw : ∀ c ∈ w, wordChar c)
    (hlast : ∀ c ∈ text.head?, wordChar c = false) (h : Spells ts text) : Spells (.word w :: ts) (w ++ text)

/-! ### Memory -/

section Memory
variable {text : List UInt8} {s : Nat}

theorem memory_eq : memory text s = (text.drop s).headD 0 := by
  rw [memory, List.getD_eq_getElem?_getD, List.headD_eq_head?_getD, List.head?_drop]

theorem skip_takeWhile (p : UInt8 → Bool) :
    skip (memory text) p (text.length - s) s = s + ((text.drop s).takeWhile p).length := by
  generalize hn : text.length - s = n
  induction n generalizing s with
  | zero =>
    rw [List.drop_eq_nil_of_le (Nat.le_of_sub_eq_zero hn)]
    rfl
  | succ n ih =>
    have hs : s < text.length := by omega
    rw [List.drop_eq_getElem_cons hs, List.takeWhile_cons, skip, memory_eq, List.drop_eq_getElem_cons hs, List.headD_cons]
    by_cases hp : p text[s] = true
    · rw [if_pos hp, if_pos hp, ih (by omega), List.length_cons]
      omega
    · rw [if_neg hp, if_neg hp]
      rfl

theorem drop_skip (p : UInt8 → Bool) :
    text.drop (skip (memory text) p (text.length - s) s) = (text.drop s).dropWhile p := by
  have h := List.takeWhile_append_dropWhile (p := p) (l := text.drop s)
  rw [skip_takeWhile, ← List.drop_drop]
  calc (text.drop s).drop ((text.drop s).takeWhile p).length
      = ((text.drop s).takeWhile p ++ (text.drop s).dropWhile p).drop ((text.drop s).takeWhile p).length := by rw [h]
    _ = (text.drop s).dropWhile p := List.drop_left

theorem skip_le (p : UInt8 → Bool) (hs : s ≤ text.length) : skip (memory text) p (text.length - s) s ≤ text.length := by
  have h := (List.takeWhile_sublist (l := text.drop s) p).length_le
  rw [List.length_drop] at h
  rw [skip_takeWhile]
  omega

end Memory

/-! ### Spellings -/

namespace Spells
variable {ts : List (Token (List UInt8))} {text : List UInt8}

theorem skip (h : Spells ts text) : Spells ts (text.dropWhile (strchr whitespace)) := by
  induction h with
  | nil => exact .nil
  | blank hc _ ih =>
    rw [List.dropWhile_cons, if_pos (show strchr whitespace _ = true from decide_eq_true hc)]
    exact ih
  | @sym ts text s hs h _ =>
    have : (s.chars ++ text).dropWhile (strchr whitespace) = s.chars ++ text := by cases s <;> rfl
    rw [this]
    exact .sym s hs h
  | @word ts text w hne hw hlast h _ =>
    cases w with
    | nil => exact absurd rfl hne
    | cons c w =>
      have hc := hw c (List.mem_cons_self ..)
      rw [wordChar, Bool.and_eq_true, Bool.not_eq_true'] at hc
      rw [List.cons_append, List.dropWhile_cons, hc.1, if_neg Bool.false_ne_true, ← List.cons_append]
      exact .word hne hw hlast h

theorem length_le (h : Spells ts text) : ts.length ≤ text.length := by
  induction h with
  | nil => exact Nat.le_refl 0
  | blank _ _ ih => exact Nat.le_succ_of_le ih
  | sym s _ _ ih =>
    have : 1 ≤ s.chars.length := by cases s <;> decide
    rw [List.length_cons, List.length_append]
    omega
  | word hne _ _ _ ih =>
    have := List.length_pos_iff.mpr hne
    rw [List.length_cons, List.length_append]
    omega

end Spells

theorem symbol_of {c : UInt8} (h : c ∈ symbols) (h' : c ≠ Shell.greater) :
    ∃ s : Sym, s ≠ .greater ∧ s.chars = [c] := by
  simp only [symbols, List.mem_cons, List.not_mem_nil, or_false] at h
  rcases h with rfl | rfl | rfl | rfl | rfl | rfl | rfl
  · exact ⟨.less, by decide, rfl⟩
  · exact ⟨.bar, by decide, rfl⟩
  · exact absurd rfl h'
  · exact ⟨.amp, by decide, rfl⟩
  · exact ⟨.semi, by decide, rfl⟩
  · exact ⟨.lparen, by decide, rfl⟩
  · exact ⟨.rparen, by decide, rfl⟩

/-- Every text has tokens. -/
theorem exists_spells (text : List UInt8) : ∃ ts, Spells ts text := by
  induction hn : text.length using Nat.strongRecOn generalizing text with
  | ind n ih =>
    cases text with
    | nil => exact ⟨[], .nil⟩
    | cons c text =>
      obtain ⟨ts, hts⟩ := ih text.length (hn ▸ Nat.lt_succ_self _) text rfl
      by_cases hspace : c ∈ whitespace
      · exact ⟨ts, .blank hspace hts⟩
      by_cases hgreater : c = Shell.greater
      · subst hgreater
        by_cases happend : text.head? = some Shell.greater
        · obtain ⟨rest, rfl⟩ : ∃ rest, text = Shell.greater :: rest := by
            cases text with
            | nil => cases happend
            | cons d rest => exact ⟨rest, by rw [Option.some.inj happend]⟩
          obtain ⟨us, hus⟩ := ih rest.length (by rw [← hn, List.length_cons, List.length_cons]; omega) rest rfl
          exact ⟨_, .sym .append (fun h => absurd h (by decide)) hus⟩
        · exact ⟨_, .sym .greater (fun _ => happend) hts⟩
      by_cases hsym : c ∈ symbols
      · obtain ⟨s, hs, hchars⟩ := symbol_of hsym hgreater
        have := Spells.sym s (fun h => absurd h hs) hts
        rw [hchars] at this
        exact ⟨_, this⟩
      · have hword : wordChar c = true := by
          rw [wordChar, strchr, strchr, decide_eq_false hspace, decide_eq_false hsym]
          rfl
        have hlen : (text.dropWhile wordChar).length < n := by
          have := (List.dropWhile_sublist (l := text) wordChar).length_le
          rw [List.length_cons] at hn
          omega
        obtain ⟨us, hus⟩ := ih _ hlen _ rfl
        have := Spells.word (w := c :: text.takeWhile wordChar) (List.cons_ne_nil _ _) ?_ ?_ hus
        · rw [List.cons_append, List.takeWhile_append_dropWhile] at this
          exact ⟨_, this⟩
        · intro d hd
          rcases List.mem_cons.mp hd with rfl | hd
          · exact hword
          · exact List.mem_takeWhile_imp hd
        · intro d hd
          have := List.head?_dropWhile_not wordChar text
          rwa [hd] at this

/-! ### The pointers -/

section Pointers
variable {text : List UInt8} {s : Nat} {ts : List (Token (List UInt8))} {fin : List UInt8}

/-- At `s` the tokens `ts` are still to come. -/
structure At (text : List UInt8) (s : Nat) (ts : List (Token (List UInt8))) : Prop where
  le : s ≤ text.length
  spells : Spells ts (text.drop s)

/-- The string between two pointers is a word of the text. -/
structure Names (text : List UInt8) (p : Nat × Nat) (w : List UInt8) : Prop where
  length : p.2 = p.1 + w.length
  drop : text.drop p.1 = w ++ text.drop p.2
  chars : ∀ c ∈ w, wordChar c
  last : ∀ c ∈ (text.drop p.2).head?, wordChar c = false

theorem At.skip (h : At text s ts) : At text (skipSpace (memory text) text.length s) ts where
  le := skip_le _ h.le
  spells := by
    rw [skipSpace, drop_skip]
    exact h.spells.skip

theorem At.no_space (text : List UInt8) (s : Nat) :
    ∀ c ∈ (text.drop (skipSpace (memory text) text.length s)).head?, c ∉ whitespace := by
  intro c hc
  rw [skipSpace, drop_skip] at hc
  have := List.head?_dropWhile_not (strchr whitespace) (text.drop s)
  rw [hc] at this
  exact of_decide_eq_false this

theorem Sym.head (s : Sym) (t : List UInt8) : (s.chars ++ t).headD 0 = s.lead := by cases s <;> rfl

theorem Sym.lead_ne_zero (s : Sym) : s.lead ≠ 0 := by cases s <;> decide

theorem wordChar_iff {c : UInt8} : wordChar c = true ↔ c ∉ whitespace ∧ c ∉ symbols := by
  rw [wordChar, strchr, strchr, Bool.and_eq_true, Bool.not_eq_true', Bool.not_eq_true', decide_eq_false_iff_not,
    decide_eq_false_iff_not]

theorem peek_simulates {toks : List UInt8} (htoks : ∀ c ∈ toks, c ∈ symbols) :
    Simulates (At text) (· = ·) (peek (memory text) text.length toks) ((stream fin).peek toks) := by
  intro s ts h
  refine .inl ⟨_, _, _, ts, rfl, rfl, ?_, h.skip⟩
  have hsp := h.skip.spells
  have hno := At.no_space text s
  rw [memory_eq]
  generalize text.drop (skipSpace (memory text) text.length s) = rest at hsp hno
  cases hsp with
  | nil => rfl
  | @blank _ _ c hc _ => exact absurd hc (hno c rfl)
  | sym s _ _ =>
    rw [Sym.head, decide_eq_true s.lead_ne_zero, Bool.true_and]
    rfl
  | @word _ _ w hne hw _ _ =>
    cases w with
    | nil => exact absurd rfl hne
    | cons c w =>
      have hc : strchr toks c = false :=
        decide_eq_false fun h => (wordChar_iff.mp (hw c (List.mem_cons_self ..))).2 (htoks c h)
      rw [List.cons_append, List.headD_cons, hc, Bool.and_false]
      rfl

section Drop
variable {l t : List UInt8} (hd : text.drop s = l ++ t)
include hd

theorem drop_append_length : text.drop (s + l.length) = t := by
  rw [← List.drop_drop, hd, List.drop_left]

theorem add_length_le (hs : s ≤ text.length) : s + l.length ≤ text.length := by
  have := congrArg List.length hd
  rw [List.length_drop, List.length_append] at this
  omega

end Drop

theorem tokenAt_sym {sym : Sym} {t : List UInt8} (hd : text.drop s = sym.chars ++ t)
    (hs : sym = .greater → t.head? ≠ some Shell.greater) :
    tokenAt (memory text) text.length s = (sym.code, s + sym.chars.length) := by
  have hm : memory text s = sym.lead := by rw [memory_eq, hd, Sym.head]
  have hnext : ∀ c t', sym.chars ++ t = c :: t' → memory text (s + 1) = t'.headD 0 := by
    intro c t' h
    rw [memory_eq, ← List.drop_drop, hd, h, List.drop_one, List.tail_cons]
  cases sym with
  | greater =>
    have hne : memory text (s + 1) ≠ Shell.greater := by
      rw [hnext _ t rfl]
      cases t with
      | nil => decide
      | cons c t => exact fun h => hs rfl (congrArg some h)
    rw [tokenAt, hm]
    exact if_neg hne
  | append =>
    have he : memory text (s + 1) = Shell.greater := hnext _ _ rfl
    rw [tokenAt, hm]
    exact if_pos he
  | _ =>
    rw [tokenAt, hm]
    rfl

theorem tokenAt_word {w t : List UInt8} (h0 : 0 ∉ text) (hd : text.drop s = w ++ t) (hne : w ≠ [])
    (hw : ∀ c ∈ w, wordChar c) (hlast : ∀ c ∈ t.head?, wordChar c = false) :
    tokenAt (memory text) text.length s = (letter, s + w.length) := by
  have hskip : skipWord (memory text) text.length s = s + w.length := by
    have ht : t.takeWhile wordChar = [] := by
      cases t with
      | nil => rfl
      | cons c t => rw [List.takeWhile_cons, hlast c rfl, if_neg Bool.false_ne_true]
    rw [skipWord, skip_takeWhile, hd, List.takeWhile_append_of_pos hw, ht, List.append_nil]
  cases w with
  | nil => exact absurd rfl hne
  | cons c w =>
    have hm : memory text s = c := by
      rw [memory_eq, hd]
      rfl
    have hc0 : c ≠ 0 := by
      rintro rfl
      refine h0 (List.mem_of_mem_drop (i := s) ?_)
      rw [hd]
      exact List.mem_cons_self ..
    have hsym := (wordChar_iff.mp (hw c (List.mem_cons_self ..))).2
    simp only [symbols, List.mem_cons, List.not_mem_nil, or_false, not_or] at hsym
    obtain ⟨h1, h2, h3, h4, h5, h6, h7⟩ := hsym
    rw [tokenAt, hm, hskip, if_neg hc0, if_neg, if_neg (show ¬c = Shell.greater from h3)]
    rintro (h | h | h | h | h | h)
    · exact h2 h
    · exact h6 h
    · exact h7 h
    · exact h5 h
    · exact h4 h
    · exact h1 h

theorem tokenAt_spells (fin : List UInt8) (h0 : 0 ∉ text) (hle : s ≤ text.length) (hsp : Spells ts (text.drop s))
    (hno : ∀ c ∈ (text.drop s).head?, c ∉ whitespace) :
    (tokenAt (memory text) text.length s).1 = (shift fin ts).1 ∧
      ((shift fin ts).1 = letter → Names text (s, (tokenAt (memory text) text.length s).2) (shift fin ts).2) ∧
      At text (tokenAt (memory text) text.length s).2 ts.tail := by
  generalize hd : text.drop s = rest at hsp hno
  cases hsp with
  | nil =>
    have hm : memory text s = 0 := by
      rw [memory_eq, hd]
      rfl
    have he : tokenAt (memory text) text.length s = (0, s) := by rw [tokenAt, if_pos hm]
    rw [he]
    exact ⟨rfl, fun h => absurd h.symm letter_ne_zero, hle, by rw [hd]; exact .nil⟩
  | @blank _ _ c hc _ => exact absurd hc (hno c rfl)
  | sym sym hs h =>
    rw [tokenAt_sym hd hs]
    refine ⟨rfl, fun h => absurd h sym.code_ne_letter, add_length_le hd hle, ?_⟩
    rw [drop_append_length hd]
    exact h
  | @word ts t w hne hw hlast h =>
    have ht := drop_append_length hd
    rw [tokenAt_word h0 hd hne hw hlast]
    refine ⟨rfl, fun _ => ⟨rfl, ?_, hw, ?_⟩, add_length_le hd hle, ?_⟩
    · exact hd.trans (congrArg (w ++ ·) ht.symm)
    · exact ht.symm ▸ hlast
    · exact ht.symm ▸ h

theorem gettoken_simulates (h0 : 0 ∉ text) :
    Simulates (At text) (fun a b => a.1 = b.1 ∧ (a.1 = letter → Names text a.2 b.2))
      (gettoken (memory text) text.length) (stream fin).gettoken := by
  intro s ts h
  obtain ⟨hret, hname, hat⟩ := tokenAt_spells fin h0 h.skip.le h.skip.spells (At.no_space text s)
  exact .inl ⟨_, _, _, _, rfl, rfl, ⟨hret, fun hl => hname (hret ▸ hl)⟩, hat.skip⟩

end Pointers

end Xv6.Shell
