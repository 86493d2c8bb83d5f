import AdvancedXv6.Shell.Grammar

/-! The parser returns the tree of every derivation, so a text has at most one. -/

namespace Xv6.Shell
open Effect

variable {W : Type} {fin : W} {ts us rest : List (Token W)} {cmd : Cmd W}

/-- The tokens end, or the next one is among `l`. -/
def Follows (l : List Sym) (rest : List (Token W)) : Prop := rest = [] ∨ ∃ s rest', rest = .sym s :: rest' ∧ s ∈ l

/-- What can stand behind a command of each kind. -/
def follow : Kind → List Sym
  | .line => [.rparen]
  | .pipe => [.rparen, .amp, .semi]
  | .exec => [.rparen, .amp, .semi, .bar]

def parser (r : Reader (List (Token W)) W) : Kind → Nat → Prog Failure (List (Token W)) (Cmd W)
  | .line => parseline r
  | .pipe => parsepipe r
  | .exec => parseexec r

theorem Follows.not_peeks {l : List Sym} {toks : List UInt8} (h : Follows l rest) (hl : ∀ s ∈ l, s.lead ∉ toks) :
    peeks toks rest = false := by
  rcases h with rfl | ⟨s, rest', rfl, hs⟩
  · rfl
  · exact decide_eq_false (hl s hs)

theorem Follows.cons {l : List Sym} {s : Sym} (h : s ∈ l) : Follows l (.sym s :: rest) := .inr ⟨s, rest, rfl, h⟩

theorem Follows.mono {l l' : List Sym} (h : Follows l rest) (hl : ∀ s ∈ l, s ∈ l') : Follows l' rest := by
  rcases h with rfl | ⟨s, rest', rfl, hs⟩
  · exact .inl rfl
  · exact .cons (hl s hs)

/-- It reads everything before `rest` and returns `out`, where its turns are enough. -/
def Yields {α : Type} (m : Prog Failure (List (Token W)) α) (ts : List (Token W)) (out : α) (rest : List (Token W)) :
    Prop :=
  wp m ts (fun a t => a = out ∧ t = rest) (fun e _ => e = .outOfFuel)

namespace Yields
variable {α β : Type} {m : Prog Failure (List (Token W)) α} {out : α} {out' : β}

protected theorem pure : Yields (pure out) ts out ts := (wp_pure out).mpr ⟨rfl, rfl⟩

protected theorem throw : Yields (throw .outOfFuel) ts out rest := (wp_throw _).mpr rfl

theorem of_eq {m' : Prog Failure (List (Token W)) α} (he : m ts = m' us) (h : Yields m' us out rest) :
    Yields m ts out rest := by
  unfold Yields wp at h ⊢
  rwa [he]

theorem of_eq_bind {m' : Prog Failure (List (Token W)) α} {f : α → Prog Failure (List (Token W)) β}
    (he : m ts = m' us) (h : Yields (m' >>= f) us out' rest) : Yields (m >>= f) ts out' rest := by
  refine of_eq ?_ h
  simp only [bind, EStateM.bind, he]

protected theorem bind {f : α → Prog Failure (List (Token W)) β} (h : Yields m ts out us)
    (hf : Yields (f out) us out' rest) : Yields (m >>= f) ts out' rest := by
  apply wp_seq h
  rintro a t ⟨rfl, rfl⟩
  exact hf

/-- A test of the next token that fails, and one that succeeds. -/
theorem skip {toks : List UInt8} {m m' : Prog Failure (List (Token W)) α} (hp : peeks toks ts = false)
    (h : Yields m' ts out rest) :
    Yields (do if ← (stream fin).peek toks then m else m') ts out rest := by
  rw [Yields, wp_bind, wp_peek, wp_ite, hp]
  exact ⟨fun h => absurd h Bool.false_ne_true, fun _ => h⟩

theorem take {toks : List UInt8} {m m' : Prog Failure (List (Token W)) α} (hp : peeks toks ts = true)
    (h : Yields m ts out rest) :
    Yields (do if ← (stream fin).peek toks then m else m') ts out rest := by
  rw [Yields, wp_bind, wp_peek, wp_ite, hp]
  exact ⟨fun _ => h, fun h => absurd rfl h⟩

theorem last {f : UInt8 × W → Prog Failure (List (Token W)) α} (h : Yields (f (0, fin)) [] out rest) :
    Yields ((stream fin).gettoken >>= f) [] out rest := by
  rw [Yields, wp_bind, wp_gettoken]
  exact h

theorem next {f : UInt8 × W → Prog Failure (List (Token W)) α} {t : Token W}
    (h : Yields (f (shift fin (t :: ts))) ts out rest) :
    Yields ((stream fin).gettoken >>= f) (t :: ts) out rest := by
  rw [Yields, wp_bind, wp_gettoken]
  exact h

end Yields

theorem redirect_step {r : Redir W} (h : Redirects us r) (n : Nat) (rs : List (Redir W)) :
    parseredirs (stream fin) (n + 1) rs (us ++ ts) = parseredirs (stream fin) n (rs ++ [r]) ts := by
  cases h <;> rfl

theorem parseredirs_yields {ps : List (Redir W)} (h : Redirections us ps) (hr : peeks [less, greater] rest = false)
    (n : Nat) (rs : List (Redir W)) :
    Yields (parseredirs (stream fin) n rs) (us ++ rest) (rs ++ ps) rest := by
  induction h generalizing n rs with
  | nil =>
    cases n with
    | zero => exact .throw
    | succ n =>
      rw [List.append_nil]
      exact .skip hr .pure
  | @cons us ts r ps h _ ih =>
    cases n with
    | zero => exact .throw
    | succ n =>
      have := ih n (rs ++ [r])
      rw [List.append_assoc] at this
      rw [List.append_assoc]
      exact .of_eq (redirect_step h n rs) this

theorem parseback_yields (k : Nat) (hr : peeks [amp] rest = false) (n : Nat) (cmd : Cmd W) :
    Yields (parseback (stream fin) n cmd) (List.replicate k (.sym .amp) ++ rest) (background k cmd) rest := by
  induction k generalizing n cmd with
  | zero =>
    cases n with
    | zero => exact .throw
    | succ n => exact .skip hr .pure
  | succ k ih =>
    cases n with
    | zero => exact .throw
    | succ n =>
      apply Yields.take rfl
      apply Yields.next
      exact ih n (.back cmd)

theorem simple_yields {ws : List W} {ps : List (Redir W)} (h : Simple us ws ps) (hr : Follows (follow .exec) rest)
    (m n : Nat) (argv : List W) (rs : List (Redir W)) (hn : (argv ++ ws).length < maxArgs) :
    Yields (parseredirs (stream fin) m rs >>= parseargs (stream fin) n argv) (us ++ rest)
      (redirs (.exec (argv ++ ws)) (rs ++ ps)) rest := by
  induction h generalizing m n argv rs with
  | nil =>
    apply Yields.bind (parseredirs_yields .nil (hr.not_peeks (by decide)) m rs)
    cases n with
    | zero => exact .throw
    | succ n =>
      rw [List.append_nil, List.append_nil]
      rcases hr with rfl | ⟨s, rest', rfl, hs⟩
      · exact .skip rfl (.last .pure)
      · exact .take (decide_eq_true (by revert hs; cases s <;> decide)) .pure
  | @redir us ts r ws ps h _ ih =>
    cases m with
    | zero => exact .throw
    | succ m =>
      have := ih m n argv (rs ++ [r]) hn
      rw [List.append_assoc] at this
      rw [List.append_assoc]
      exact .of_eq_bind (redirect_step h m rs) this
  | @word ts w ws ps _ ih =>
    apply Yields.bind (parseredirs_yields .nil rfl m rs)
    cases n with
    | zero => exact .throw
    | succ n =>
      have hlen : ¬maxArgs ≤ argv.length + 1 := by
        rw [List.length_append, List.length_cons] at hn
        omega
      rw [List.append_nil]
      refine .skip rfl (.next ?_)
      rw [shift_word, if_neg letter_ne_zero, if_neg fun h => h rfl, if_neg hlen]
      have := ih n n (argv ++ [w]) rs (by rwa [List.append_assoc])
      rwa [List.append_assoc] at this

theorem Simple.starts {ws : List W} {ps : List (Redir W)} (h : Simple us ws ps) (hr : Follows (follow .exec) rest) :
    peeks [lparen] (us ++ rest) = false := by
  cases h with
  | nil => exact hr.not_peeks (by decide)
  | word w _ => rfl
  | redir h _ => cases h <;> rfl

theorem follows_amps {l : List Sym} (k : Nat) (h : Follows l rest) :
    Follows (.amp :: l) (List.replicate k (.sym .amp) ++ rest) := by
  cases k with
  | zero => exact h.mono fun s hs => List.mem_cons_of_mem _ hs
  | succ k => exact .cons (List.mem_cons_self ..)

/-- Every derivation is found, whatever stands behind it. -/
theorem derives_yields (fin : W) {k : Kind} (h : Derives k us cmd) (n : Nat) (hr : Follows (follow k) rest) :
    Yields (parser (stream fin) k n) (us ++ rest) cmd rest := by
  induction h generalizing n rest with
  | @last ts cmd _ k ih =>
    cases n with
    | zero => exact .throw
    | succ n =>
      rw [List.append_assoc]
      apply Yields.bind (ih n ((follows_amps k hr).mono (by decide)))
      apply Yields.bind (parseback_yields k (hr.not_peeks (by decide)) n cmd)
      exact .skip (hr.not_peeks (by decide)) .pure
  | @list ts us cmd right _ k _ ih ihr =>
    cases n with
    | zero => exact .throw
    | succ n =>
      have hs : Follows [.semi] (.sym .semi :: (us ++ rest)) := .cons (List.mem_singleton_self _)
      rw [List.append_assoc, List.append_assoc]
      apply Yields.bind (ih n ((follows_amps k hs).mono (by decide)))
      apply Yields.bind (parseback_yields k (hs.not_peeks (by decide)) n cmd)
      apply Yields.take rfl
      apply Yields.next
      exact .bind (ihr n hr) .pure
  | one _ ih =>
    cases n with
    | zero => exact .throw
    | succ n =>
      apply Yields.bind (ih n (hr.mono (by decide)))
      exact .skip (hr.not_peeks (by decide)) .pure
  | @pipe ts us cmd right _ _ ih ihr =>
    cases n with
    | zero => exact .throw
    | succ n =>
      rw [List.append_assoc]
      apply Yields.bind (ih n (.cons (by decide)))
      apply Yields.take rfl
      apply Yields.next
      exact .bind (ihr n hr) .pure
  | @block ts us cmd rs _ hs ih =>
    cases n with
    | zero => exact .throw
    | succ n =>
      rw [List.cons_append, List.cons_append, List.append_assoc]
      refine .take rfl ?_
      cases n with
      | zero => exact .throw
      | succ n =>
        apply Yields.take rfl
        apply Yields.next
        apply Yields.bind (ih n (.cons (by decide)))
        apply Yields.take rfl
        apply Yields.next
        exact .bind (parseredirs_yields hs (hr.not_peeks (by decide)) n []) .pure
  | simple hs hn =>
    cases n with
    | zero => exact .throw
    | succ n => exact .skip (hs.starts hr) (simple_yields hs hr n n [] [] hn)

/-- On the tokens of a whole text: the derived tree, the only one; or none is derived. -/
theorem parseline_stream (fin : W) {n : Nat} (hn : 4 * ts.length + 4 ≤ n) :
    wp (parseline (stream fin) n) ts
      (fun cmd rest => rest = [] → Derives .line ts cmd)
      (fun e _ => e ≠ .outOfFuel) ∧
    ∀ cmd, Derives .line ts cmd → parseline (stream fin) n ts = .ok cmd [] := by
  have hacc := (accepts fin n).1 ts
  constructor
  · apply wp_mono hacc
    · rintro cmd rest ⟨us, rfl, hd⟩ rfl
      rwa [List.append_nil]
    · intro e _ h he
      have := h he
      omega
  · intro cmd hd
    have hy : Yields (parseline (stream fin) n) ts cmd [] := by
      have := derives_yields fin hd n (.inl rfl)
      rwa [List.append_nil] at this
    unfold Yields wp at hy
    unfold wp at hacc
    cases hm : parseline (stream fin) n ts with
    | ok a t =>
      rw [hm] at hy
      rw [hy.1, hy.2]
    | error e t =>
      rw [hm] at hy hacc
      have := hacc hy
      omega

end Xv6.Shell
