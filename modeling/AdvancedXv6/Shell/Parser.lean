import AdvancedXv6.Shell.Complete
import AdvancedXv6.Shell.Lexer
import Mathlib.Data.List.Forall2

/-! The shell's parser accepts exactly the lines of its grammar, with the tree that the grammar gives, and
`nulterminate` makes each string of the tree its token. -/

namespace Xv6.Shell
open Effect Function

/-! ### Commands with related strings -/

section Rel
variable {W X : Type} {V V' : W → X → Prop}

/-- The same command, its strings related by `V`. -/
inductive Cmd.Rel (V : W → X → Prop) : Cmd W → Cmd X → Prop
  | exec {ws : List W} {xs : List X} (h : List.Forall₂ V ws xs) : Rel V (.exec ws) (.exec xs)
  | redir {c : Cmd W} {d : Cmd X} {w : W} {x : X} {mode fd : Nat} (h : Rel V c d) (hf : V w x) :
    Rel V (.redir c w mode fd) (.redir d x mode fd)
  | pipe {c c' : Cmd W} {d d' : Cmd X} (h : Rel V c d) (h' : Rel V c' d') : Rel V (.pipe c c') (.pipe d d')
  | list {c c' : Cmd W} {d d' : Cmd X} (h : Rel V c d) (h' : Rel V c' d') : Rel V (.list c c') (.list d d')
  | back {c : Cmd W} {d : Cmd X} (h : Rel V c d) : Rel V (.back c) (.back d)

def Cmd.strings : Cmd W → List W
  | .exec argv => argv
  | .redir cmd file _ _ => cmd.strings ++ [file]
  | .pipe left right => left.strings ++ right.strings
  | .list left right => left.strings ++ right.strings
  | .back cmd => cmd.strings

structure Redir.Rel (V : W → X → Prop) (r : Redir W) (r' : Redir X) : Prop where
  file : V r.file r'.file
  mode : r.mode = r'.mode
  fd : r.fd = r'.fd

theorem Cmd.Rel.mono {c : Cmd W} {d : Cmd X} (h : c.Rel V d) (hV : ∀ w ∈ c.strings, ∀ x, V w x → V' w x) :
    c.Rel V' d := by
  induction h with
  | exec h =>
    refine .exec ?_
    induction h with
    | nil => exact .nil
    | cons hw _ ih => exact .cons (hV _ (List.mem_cons_self ..) _ hw) (ih fun w hw => hV w (List.mem_cons_of_mem _ hw))
  | redir _ hf ih =>
    exact .redir (ih fun w hw => hV w (List.mem_append_left _ hw))
      (hV _ (List.mem_append_right _ (List.mem_singleton_self _)) _ hf)
  | pipe _ _ ih ih' =>
    exact .pipe (ih fun w hw => hV w (List.mem_append_left _ hw)) (ih' fun w hw => hV w (List.mem_append_right _ hw))
  | list _ _ ih ih' =>
    exact .list (ih fun w hw => hV w (List.mem_append_left _ hw)) (ih' fun w hw => hV w (List.mem_append_right _ hw))
  | back _ ih => exact .back (ih hV)

theorem Cmd.Rel.exists_of_mem {c : Cmd W} {d : Cmd X} (h : c.Rel V d) {w : W} (hw : w ∈ c.strings) : ∃ x, V w x := by
  induction h with
  | exec h =>
    induction h with
    | nil => cases hw
    | cons hx _ ih =>
      rcases List.mem_cons.mp hw with rfl | hw
      · exact ⟨_, hx⟩
      · exact ih hw
  | redir _ hf ih =>
    rcases List.mem_append.mp hw with hw | hw
    · exact ih hw
    · exact ⟨_, List.mem_singleton.mp hw ▸ hf⟩
  | pipe _ _ ih ih' => exact (List.mem_append.mp hw).elim ih ih'
  | list _ _ ih ih' => exact (List.mem_append.mp hw).elim ih ih'
  | back _ ih => exact ih hw

theorem Cmd.Rel.unique {c : Cmd W} {d d' : Cmd X} (hV : Relator.RightUnique V) (h : c.Rel V d)
    (h' : c.Rel V d') : d = d' := by
  induction h generalizing d' with
  | exec h =>
    cases h' with
    | exec h' => rw [List.right_unique_forall₂' hV h h']
  | redir _ hf ih =>
    cases h' with
    | redir h' hf' => rw [ih h', hV hf hf']
  | pipe _ _ ih ih' =>
    cases h' with
    | pipe h h' => rw [ih h, ih' h']
  | list _ _ ih ih' =>
    cases h' with
    | list h h' => rw [ih h, ih' h']
  | back _ ih =>
    cases h' with
    | back h' => rw [ih h']

end Rel

/-! ### Two readers -/

section Readers
variable {σ τ W X : Type} {R : σ → τ → Prop} {V : W → X → Prop} {r : Reader σ W} {r' : Reader τ X}

/-- Related readers find the same symbols and related words. -/
structure Reader.Simulates (R : σ → τ → Prop) (V : W → X → Prop) (r : Reader σ W) (r' : Reader τ X) : Prop where
  peek : ∀ toks : List UInt8, (∀ c ∈ toks, c ∈ symbols) → Effect.Simulates R (· = ·) (r.peek toks) (r'.peek toks)
  gettoken : Effect.Simulates R (fun a b => a.1 = b.1 ∧ (a.1 = letter → V a.2 b.2)) r.gettoken r'.gettoken

variable (h : r.Simulates R V r')
include h

/-- The test of the next token goes the same way. -/
theorem Reader.Simulates.branch {α β : Type} {P : α → β → Prop} {toks : List UInt8} (ht : toks.all (· ∈ symbols) = true)
    {m n : Prog Failure σ α} {m' n' : Prog Failure τ β} (hm : Effect.Simulates R P m m')
    (hn : Effect.Simulates R P n n') :
    Effect.Simulates R P (do if ← r.peek toks then m else n) (do if ← r'.peek toks then m' else n') := by
  apply Effect.Simulates.bind (h.peek toks fun c hc => of_decide_eq_true (List.all_eq_true.mp ht c hc))
  rintro a b rfl
  exact .ite (fun _ => hm) fun _ => hn

theorem parseredirs_simulates (n : Nat) {rs : List (Redir W)} {rs' : List (Redir X)}
    (hrs : List.Forall₂ (Redir.Rel V) rs rs') :
    Effect.Simulates R (List.Forall₂ (Redir.Rel V)) (parseredirs r n rs) (parseredirs r' n rs') := by
  induction n generalizing rs rs' with
  | zero => exact .throw _
  | succ n ih =>
    apply h.branch (by decide)
    · apply Effect.Simulates.bind h.gettoken
      rintro tok tok' ⟨htok, -⟩
      apply Effect.Simulates.bind h.gettoken
      rintro file file' ⟨hfile, hV⟩
      rw [hfile]
      refine .ite (fun _ => .throw _) fun hl => ih (List.rel_append hrs ?_)
      have hw := hV (hfile ▸ not_not.mp hl)
      rw [htok]
      unfold redirOf
      split_ifs
      · exact .cons ⟨hw, rfl, rfl⟩ .nil
      · exact .cons ⟨hw, rfl, rfl⟩ .nil
      · exact .cons ⟨hw, rfl, rfl⟩ .nil
      · exact .nil
    · exact .pure hrs

omit h in
theorem redirs_rel {c : Cmd W} {d : Cmd X} {rs : List (Redir W)} {rs' : List (Redir X)} (hc : c.Rel V d)
    (hrs : List.Forall₂ (Redir.Rel V) rs rs') : (redirs c rs).Rel V (redirs d rs') := by
  induction hrs generalizing c d with
  | nil => exact hc
  | @cons q q' rs rs' hq _ ih =>
    have : (Cmd.redir c q.file q.mode q.fd).Rel V (.redir d q'.file q'.mode q'.fd) := by
      rw [hq.mode, hq.fd]
      exact .redir hc hq.file
    exact ih this

theorem parseargs_simulates (n : Nat) {argv : List W} {argv' : List X} {rs : List (Redir W)} {rs' : List (Redir X)}
    (ha : List.Forall₂ V argv argv') (hrs : List.Forall₂ (Redir.Rel V) rs rs') :
    Effect.Simulates R (Cmd.Rel V) (parseargs r n argv rs) (parseargs r' n argv' rs') := by
  induction n generalizing argv argv' rs rs' with
  | zero => exact .throw _
  | succ n ih =>
    have hcmd := redirs_rel (.exec ha) hrs
    apply h.branch (by decide) (.pure hcmd)
    apply Effect.Simulates.bind h.gettoken
    rintro tok tok' ⟨htok, hV⟩
    rw [← htok, ← ha.length_eq]
    refine .ite (fun _ => .pure hcmd) fun _ => .ite (fun _ => .throw _) fun hl => .ite (fun _ => .throw _) fun _ => ?_
    apply Effect.Simulates.bind (parseredirs_simulates h n hrs)
    intro rs rs' hrs
    exact ih (List.rel_append ha (.cons (hV (not_not.mp hl)) .nil)) hrs

theorem parseback_simulates (n : Nat) {c : Cmd W} {d : Cmd X} (hc : c.Rel V d) :
    Effect.Simulates R (Cmd.Rel V) (parseback r n c) (parseback r' n d) := by
  induction n generalizing c d with
  | zero => exact .throw _
  | succ n ih =>
    apply h.branch (by decide)
    · exact .bind h.gettoken fun _ _ _ => ih (.back hc)
    · exact .pure hc

theorem parse_simulates (n : Nat) : Effect.Simulates R (Cmd.Rel V) (parseline r n) (parseline r' n) ∧
    Effect.Simulates R (Cmd.Rel V) (parsepipe r n) (parsepipe r' n) ∧
    Effect.Simulates R (Cmd.Rel V) (parseblock r n) (parseblock r' n) ∧
    Effect.Simulates R (Cmd.Rel V) (parseexec r n) (parseexec r' n) := by
  induction n with
  | zero => exact ⟨.throw _, .throw _, .throw _, .throw _⟩
  | succ n ih =>
    obtain ⟨hline, hpipe, hblock, hexec⟩ := ih
    refine ⟨?_, ?_, ?_, ?_⟩
    · apply Effect.Simulates.bind hpipe
      intro c d hc
      apply Effect.Simulates.bind (parseback_simulates h n hc)
      intro c d hc
      apply h.branch (by decide)
      · exact .bind h.gettoken fun _ _ _ => .bind hline fun _ _ hr => .pure (.list hc hr)
      · exact .pure hc
    · apply Effect.Simulates.bind hexec
      intro c d hc
      apply h.branch (by decide)
      · exact .bind h.gettoken fun _ _ _ => .bind hpipe fun _ _ hr => .pure (.pipe hc hr)
      · exact .pure hc
    · apply h.branch (by decide)
      · apply Effect.Simulates.bind h.gettoken
        intro _ _ _
        apply Effect.Simulates.bind hline
        intro c d hc
        apply h.branch (by decide)
        · exact .bind h.gettoken fun _ _ _ => .bind (parseredirs_simulates h n .nil) fun _ _ hr => .pure (redirs_rel hc hr)
        · exact .throw _
      · exact .throw _
    · apply h.branch (by decide) hblock
      exact .bind (parseredirs_simulates h n .nil) fun _ _ hr => parseargs_simulates h n .nil hr

end Readers

/-! ### The strings after `nulterminate` -/

theorem foldl_update (ws : List (Nat × Nat)) (buf : Nat → UInt8) (k : Nat) :
    ws.foldl (fun buf w => update buf w.2 0) buf k = if k ∈ ws.map Prod.snd then 0 else buf k := by
  induction ws generalizing buf with
  | nil => rfl
  | cons w ws ih =>
    rw [List.foldl_cons, ih, List.map_cons, update_apply, ← ite_or]
    exact if_congr (or_comm.trans List.mem_cons.symm) rfl rfl

/-- A NUL at the end of each string of the command, the rest as before. -/
theorem nulterminate_eq (cmd : Cmd (Nat × Nat)) (buf : Nat → UInt8) (k : Nat) :
    nulterminate cmd buf k = if k ∈ cmd.strings.map Prod.snd then 0 else buf k := by
  induction cmd generalizing buf with
  | exec argv => exact foldl_update argv buf k
  | redir cmd file mode fd ih =>
    rw [nulterminate, update_apply, ih, ← ite_or, Cmd.strings, List.map_append, List.map_singleton]
    exact if_congr (or_comm.trans (by rw [List.mem_append, List.mem_singleton])) rfl rfl
  | pipe left right ih ih' =>
    rw [nulterminate, ih', ih, ← ite_or, Cmd.strings, List.map_append]
    exact if_congr (or_comm.trans List.mem_append.symm) rfl rfl
  | list left right ih ih' =>
    rw [nulterminate, ih', ih, ← ite_or, Cmd.strings, List.map_append]
    exact if_congr (or_comm.trans List.mem_append.symm) rfl rfl
  | back cmd ih => exact ih buf

/-- The string at `q` in memory. -/
def IsString (buf : Nat → UInt8) (q : Nat) (w : List UInt8) : Prop :=
  (∀ (i : Nat) (hi : i < w.length), buf (q + i) = w[i] ∧ w[i] ≠ 0) ∧ buf (q + w.length) = 0

section Strings
variable {text : List UInt8} {p : Nat × Nat} {w : List UInt8}

theorem Names.unique : Relator.RightUnique (Names text) := by
  intro p w w' h h'
  have hlen : w.length = w'.length := Nat.add_left_cancel (h.length.symm.trans h'.length)
  exact List.append_inj_left (h.drop.symm.trans h'.drop) hlen

theorem Names.get (h : Names text p w) {i : Nat} (hi : i < w.length) :
    text.drop (p.1 + i) = w[i] :: (w.drop (i + 1) ++ text.drop p.2) := by
  rw [← List.drop_drop, h.drop, List.drop_append_of_le_length hi.le, List.drop_eq_getElem_cons hi, List.cons_append]

theorem nulterminate_string {c : Cmd (Nat × Nat)} {t : Cmd (List UInt8)} (h0 : 0 ∉ text) (hc : c.Rel (Names text) t)
    (hp : p ∈ c.strings) (h : Names text p w) : IsString (nulterminate c (memory text)) p.1 w := by
  have hends : ∀ k ∈ c.strings.map Prod.snd, ∀ d ∈ (text.drop k).head?, wordChar d = false := by
    intro k hk
    obtain ⟨p', hp', rfl⟩ := List.mem_map.mp hk
    obtain ⟨w', hw'⟩ := hc.exists_of_mem hp'
    exact hw'.last
  constructor
  · intro i hi
    have hget := h.get hi
    have hchar := h.chars w[i] (List.getElem_mem hi)
    rw [nulterminate_eq, if_neg, memory_eq, hget, List.headD_cons]
    · refine ⟨rfl, fun hz => h0 (List.mem_of_mem_drop (i := p.1 + i) ?_)⟩
      rw [hget, hz]
      exact List.mem_cons_self ..
    · -- the end of a string is not inside another one
      intro hk
      have := hends _ hk w[i] (by rw [hget]; rfl)
      exact Bool.false_ne_true (this.symm.trans hchar)
  · rw [nulterminate_eq, ← h.length, if_pos (List.mem_map_of_mem hp)]

end Strings

/-! ### The whole text -/

/-- The text has tokens from which the grammar derives a line with this tree. -/
def Derived (text : List UInt8) (t : Cmd (List UInt8)) : Prop := ∃ ts, Spells ts text ∧ Derives .line ts t

section Text
variable {text : List UInt8} {n : Nat}

theorem pointers_simulates (h0 : 0 ∉ text) :
    (pointers (memory text) text.length).Simulates (At text) (Names text) (stream []) where
  peek _ ht := peek_simulates ht
  gettoken := gettoken_simulates h0

/-- The parser finds the tree and leaves whitespace only. -/
theorem derived_run (h0 : 0 ∉ text) (hn : 4 * text.length + 4 ≤ n) {t : Cmd (List UInt8)} (hd : Derived text t) :
    ∃ c s, parseline (pointers (memory text) text.length) n 0 = .ok c s ∧ c.Rel (Names text) t ∧ At text s [] := by
  obtain ⟨ts, hts, hd⟩ := hd
  have hlen := hts.length_le
  have hrun := (parseline_stream [] (show 4 * ts.length + 4 ≤ n by omega)).2 t hd
  exact (parse_simulates (pointers_simulates h0) n).1.ok_right ⟨Nat.zero_le _, hts⟩ hrun

theorem run_derived (h0 : 0 ∉ text) (hn : 4 * text.length + 4 ≤ n) {c : Cmd (Nat × Nat)} {s : Nat}
    (hrun : parseline (pointers (memory text) text.length) n 0 = .ok c s)
    (hs : skipSpace (memory text) text.length s = text.length) : ∃ t, Derived text t ∧ c.Rel (Names text) t := by
  obtain ⟨ts, hts⟩ := exists_spells text
  have hlen := hts.length_le
  obtain ⟨t, rest, hrun', hrel, hat⟩ :=
    (parse_simulates (pointers_simulates h0) n).1.ok_left (t := ts) ⟨Nat.zero_le _, hts⟩ hrun
  have hrest := hat.skip.spells.length_le
  rw [hs, List.drop_length] at hrest
  obtain rfl := List.eq_nil_of_length_eq_zero (Nat.le_zero.mp hrest)
  exact ⟨t, ⟨ts, hts, wp_ok (parseline_stream [] (show 4 * ts.length + 4 ≤ n by omega)).1 hrun' rfl⟩, hrel⟩

theorem parse_terminates (h0 : 0 ∉ text) (hn : 4 * text.length + 4 ≤ n) {s : Nat} :
    parseline (pointers (memory text) text.length) n 0 ≠ .error .outOfFuel s := by
  intro hrun
  obtain ⟨ts, hts⟩ := exists_spells text
  have hlen := hts.length_le
  obtain ⟨rest, hrun'⟩ := (parse_simulates (pointers_simulates h0) n).1.error_left (t := ts) ⟨Nat.zero_le _, hts⟩ hrun
  exact wp_error (parseline_stream [] (show 4 * ts.length + 4 ≤ n by omega)).1 hrun' rfl

/-- At the end of the tokens nothing but whitespace follows. -/
theorem At.end {s : Nat} (h : At text s []) : skipSpace (memory text) text.length s = text.length := by
  have hle := h.skip.le
  have hsp := h.skip.spells
  have hno := At.no_space text s
  generalize hd : text.drop (skipSpace (memory text) text.length s) = rest at hsp hno
  cases hsp with
  | nil =>
    have := congrArg List.length hd
    rw [List.length_drop] at this
    exact Nat.le_antisymm hle (Nat.le_of_sub_eq_zero this)
  | @blank _ _ c hc _ => exact absurd hc (hno c rfl)

/-- With enough turns the parser stops, either with the one tree that the grammar gives the text, each string of it
a token of the text, or with a panic on a text that the grammar does not derive. -/
theorem parsecmd_grammar (h0 : 0 ∉ text) (hn : 4 * text.length + 4 ≤ n) :
    wp (parsecmd n text) 0
      (fun out _ => ∃ t, Derived text t ∧ (∀ t', Derived text t' → t' = t) ∧
        out.1.Rel (fun p w => IsString out.2 p.1 w) t)
      (fun e _ => (∃ s, e = .panic s) ∧ ∀ t, ¬Derived text t) := by
  have hderived := @derived_run text n h0 hn
  rw [parsecmd, wp_bind]
  cases hm : parseline (pointers (memory text) text.length) n 0 with
  | error e s =>
    refine wp_of_error hm ⟨?_, fun t hd => ?_⟩
    · cases e with
      | panic msg => exact ⟨msg, rfl⟩
      | outOfFuel => exact absurd hm (parse_terminates h0 hn)
    · obtain ⟨c, s', hrun, -⟩ := hderived hd
      rw [hrun] at hm
      cases hm
  | ok c s =>
    have hunique : ∀ t, Derived text t → c.Rel (Names text) t ∧ At text s [] := by
      intro t hd
      obtain ⟨c', s', hrun, hrel, hat⟩ := hderived hd
      rw [hm] at hrun
      cases hrun
      exact ⟨hrel, hat⟩
    apply wp_of_ok hm
    rw [peek, wp_bind, wp_bind, wp_modify, wp_bind, wp_get, wp_pure, wp_bind, wp_get, wp_ite]
    refine ⟨fun hs => (wp_throw _).mpr ⟨⟨_, rfl⟩, fun t hd => hs (hunique t hd).2.end⟩, fun hs => (wp_pure _).mpr ?_⟩
    obtain ⟨t, hd, hrel⟩ := run_derived h0 hn hm (not_not.mp hs)
    refine ⟨t, hd, fun t' hd' => (hunique t' hd').1.unique Names.unique hrel, ?_⟩
    exact hrel.mono fun p hp w hw => nulterminate_string h0 hrel hp hw

/-- `a >b|c&` -/
theorem parsecmd_grammar_pipe : ∃ out s t, parsecmd 32 [97, 32, 62, 98, 124, 99, 38] 0 = .ok out s ∧
    Derived [97, 32, 62, 98, 124, 99, 38] t ∧ out.1.Rel (fun p w => IsString out.2 p.1 w) t := by
  obtain ⟨out, s, hrun⟩ : ∃ out s, parsecmd 32 [97, 32, 62, 98, 124, 99, 38] 0 = .ok out s := ⟨_, _, rfl⟩
  obtain ⟨t, hd, -, hrel⟩ := wp_ok (parsecmd_grammar (by decide) (by decide)) hrun
  exact ⟨out, s, t, hrun, hd, hrel⟩

end Text

end Xv6.Shell
