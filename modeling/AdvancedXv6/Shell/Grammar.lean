import AdvancedXv6.Shell.State
import Mathlib.Data.List.Basic
import Mathlib.Logic.Function.Iterate

/-! The grammar of command lines over tokens, and the parser on a list of tokens: it accepts what the grammar
derives, with the tree that the grammar gives it. -/

namespace Xv6.Shell
open Effect

inductive Sym
  | less | bar | greater | append | amp | semi | lparen | rparen
  deriving DecidableEq

/-- What `gettoken` returns. -/
def Sym.code : Sym → UInt8
  | .less => Shell.less
  | .bar => Shell.bar
  | .greater => Shell.greater
  | .append => plus
  | .amp => Shell.amp
  | .semi => Shell.semi
  | .lparen => Shell.lparen
  | .rparen => Shell.rparen

/-- The character it starts with, the one that `peek` compares. -/
def Sym.lead (s : Sym) : UInt8 := if s = .append then Shell.greater else s.code

inductive Token (W : Type)
  | sym (s : Sym)
  | word (w : W)

/-! ### The grammar -/

section Grammar
variable {W : Type}

/-- `redir ::= ('<' | '>' | '>>') word` -/
inductive Redirects : List (Token W) → Redir W → Prop
  | input (w : W) : Redirects [.sym .less, .word w] ⟨w, oRdonly, 0⟩
  | output (w : W) : Redirects [.sym .greater, .word w] ⟨w, oWronly ||| oCreate, 1⟩
  | append (w : W) : Redirects [.sym .append, .word w] ⟨w, oWronly ||| oCreate, 1⟩

/-- `redir*` -/
inductive Redirections : List (Token W) → List (Redir W) → Prop
  | nil : Redirections [] []
  | cons {us ts : List (Token W)} {r : Redir W} {rs : List (Redir W)} (h : Redirects us r)
    (hs : Redirections ts rs) : Redirections (us ++ ts) (r :: rs)

/-- `(redir | word)*`: its words and its redirections -/
inductive Simple : List (Token W) → List W → List (Redir W) → Prop
  | nil : Simple [] [] []
  | redir {us ts : List (Token W)} {r : Redir W} {ws : List W} {rs : List (Redir W)} (h : Redirects us r)
    (hs : Simple ts ws rs) : Simple (us ++ ts) ws (r :: rs)
  | word {ts : List (Token W)} (w : W) {ws : List W} {rs : List (Redir W)} (hs : Simple ts ws rs) :
    Simple (.word w :: ts) (w :: ws) rs

inductive Kind
  | line | pipe | exec

def background (k : Nat) (cmd : Cmd W) : Cmd W := Cmd.back^[k] cmd

/-- The tokens that a line, a pipe or a command can have, with its tree. -/
inductive Derives : Kind → List (Token W) → Cmd W → Prop
  | last {ts : List (Token W)} {cmd : Cmd W} (h : Derives .pipe ts cmd) (k : Nat) :
    Derives .line (ts ++ List.replicate k (.sym .amp)) (background k cmd)
  | list {ts us : List (Token W)} {cmd right : Cmd W} (h : Derives .pipe ts cmd) (k : Nat)
    (hr : Derives .line us right) :
    Derives .line (ts ++ List.replicate k (.sym .amp) ++ .sym .semi :: us) (.list (background k cmd) right)
  | one {ts : List (Token W)} {cmd : Cmd W} (h : Derives .exec ts cmd) : Derives .pipe ts cmd
  | pipe {ts us : List (Token W)} {cmd right : Cmd W} (h : Derives .exec ts cmd) (hr : Derives .pipe us right) :
    Derives .pipe (ts ++ .sym .bar :: us) (.pipe cmd right)
  | block {ts us : List (Token W)} {cmd : Cmd W} {rs : List (Redir W)} (h : Derives .line ts cmd)
    (hs : Redirections us rs) : Derives .exec (.sym .lparen :: ts ++ .sym .rparen :: us) (redirs cmd rs)
  | simple {ts : List (Token W)} {ws : List W} {rs : List (Redir W)} (h : Simple ts ws rs)
    (hn : ws.length < maxArgs) : Derives .exec ts (redirs (.exec ws) rs)

end Grammar

/-! ### Reading from a list of tokens -/

section Stream
variable {W : Type}

def Token.code : Token W → UInt8
  | .sym s => s.code
  | .word _ => letter

def peeks (toks : List UInt8) : List (Token W) → Bool
  | .sym s :: _ => strchr toks s.lead
  | _ => false

/-- `fin` is what `gettoken` puts into `q` and `eq` at the end and at a symbol. -/
def shift (fin : W) : List (Token W) → UInt8 × W
  | [] => (0, fin)
  | .sym s :: _ => (s.code, fin)
  | .word w :: _ => (letter, w)

def stream (fin : W) : Reader (List (Token W)) W where
  peek toks := do return peeks toks (← get)
  gettoken := do
    let ts ← get
    modify List.tail
    return shift fin ts

variable {fin : W} {ts : List (Token W)}

theorem shift_word (w : W) : shift fin (.word w :: ts) = (letter, w) := rfl

section Rules
variable {E : Failure → List (Token W) → Prop}

@[simp] theorem wp_peek {Q : Bool → List (Token W) → Prop} {toks : List UInt8} :
    wp ((stream fin).peek toks) ts Q E ↔ Q (peeks toks ts) ts := by
  simp only [stream, wp_bind, wp_get, wp_pure]

@[simp] theorem wp_gettoken {Q : UInt8 × W → List (Token W) → Prop} :
    wp (stream fin).gettoken ts Q E ↔ Q (shift fin ts) ts.tail := by
  simp only [stream, wp_bind, wp_get, wp_modify, wp_pure]

end Rules

theorem peeks_iff {toks : List UInt8} : peeks toks ts = true ↔ ∃ s rest, ts = .sym s :: rest ∧ s.lead ∈ toks := by
  cases ts with
  | nil => simp [peeks]
  | cons t rest => cases t <;> simp [peeks, strchr]

theorem Sym.code_ne_letter (s : Sym) : s.code ≠ letter := by cases s <;> decide

theorem Sym.code_ne_zero (s : Sym) : s.code ≠ 0 := by cases s <;> decide

theorem Sym.eq_amp {s : Sym} (h : s.lead ∈ [Shell.amp]) : s = .amp := by revert h; cases s <;> decide

theorem Sym.eq_bar {s : Sym} (h : s.lead ∈ [Shell.bar]) : s = .bar := by revert h; cases s <;> decide

theorem Sym.eq_semi {s : Sym} (h : s.lead ∈ [Shell.semi]) : s = .semi := by revert h; cases s <;> decide

theorem Sym.eq_lparen {s : Sym} (h : s.lead ∈ [Shell.lparen]) : s = .lparen := by revert h; cases s <;> decide

theorem Sym.eq_rparen {s : Sym} (h : s.lead ∈ [Shell.rparen]) : s = .rparen := by revert h; cases s <;> decide

theorem letter_ne_zero : letter ≠ 0 := by decide

theorem Sym.redirects {s : Sym} (h : s.lead ∈ [Shell.less, Shell.greater]) (w : W) :
    ∃ r, redirOf s.code w = [r] ∧ Redirects [.sym s, .word w] r := by
  cases s with
  | less => exact ⟨_, rfl, .input w⟩
  | greater => exact ⟨_, rfl, .output w⟩
  | append => exact ⟨_, rfl, .append w⟩
  | _ => exact absurd h (by decide)

theorem Redirections.append {us ts : List (Token W)} {ws : List W} {ps rs : List (Redir W)} (h : Redirections us ps)
    (hs : Simple ts ws rs) : Simple (us ++ ts) ws (ps ++ rs) := by
  induction h with
  | nil => exact hs
  | cons h _ ih =>
    rw [List.append_assoc]
    exact .redir h ih

theorem wp_panic (msg : String) {α : Type} {Q : α → List (Token W) → Prop} {P : Prop} :
    wp (throw (Failure.panic msg)) ts Q (fun e _ => e = Failure.outOfFuel → P) :=
  (wp_throw _).mpr fun he => by cases he

/-! ### What the parser accepts is derived, and its turns suffice -/

theorem wp_parseredirs (n : Nat) (rs : List (Redir W)) :
    wp (parseredirs (stream fin) n rs) ts
      (fun out rest => ∃ us ps, ts = us ++ rest ∧ Redirections us ps ∧ out = rs ++ ps)
      (fun e _ => e = .outOfFuel → n ≤ ts.length) := by
  induction n generalizing rs ts with
  | zero => exact (wp_throw _).mpr fun _ => Nat.zero_le _
  | succ n ih =>
    rw [parseredirs, wp_bind, wp_peek, wp_ite]
    refine ⟨fun hp => ?_, fun _ => (wp_pure _).mpr ⟨[], [], rfl, .nil, (List.append_nil rs).symm⟩⟩
    obtain ⟨s, rest, rfl, hs⟩ := peeks_iff.mp hp
    rw [wp_bind, wp_gettoken, wp_bind, wp_gettoken, wp_ite]
    refine ⟨fun _ => wp_panic _, fun hfile => ?_⟩
    have hword : ∃ w rest', rest = .word w :: rest' := by
      cases rest with
      | nil => exact absurd letter_ne_zero.symm hfile
      | cons t rest' =>
        cases t with
        | sym s' => exact absurd s'.code_ne_letter hfile
        | word w => exact ⟨w, rest', rfl⟩
    obtain ⟨w, rest', rfl⟩ := hword
    obtain ⟨r, hr, hd⟩ := Sym.redirects hs w
    apply wp_mono (ih (rs ++ redirOf s.code w))
    · rintro out rest ⟨us, ps, rfl, hus, rfl⟩
      refine ⟨[.sym s, .word w] ++ us, r :: ps, rfl, .cons hd hus, ?_⟩
      rw [hr, List.append_assoc]
      rfl
    · intro e _ he h
      have := he h
      simp only [List.length_cons, List.tail_cons] at this ⊢
      omega

theorem wp_parseargs (n : Nat) (argv : List W) (rs : List (Redir W)) (hn : argv.length < maxArgs) :
    wp (parseargs (stream fin) n argv rs) ts
      (fun cmd rest => ∃ us ws ps, ts = us ++ rest ∧ Simple us ws ps ∧ (argv ++ ws).length < maxArgs ∧
        cmd = redirs (.exec (argv ++ ws)) (rs ++ ps))
      (fun e _ => e = .outOfFuel → n ≤ ts.length) := by
  induction n generalizing argv rs ts with
  | zero => exact (wp_throw _).mpr fun _ => Nat.zero_le _
  | succ n ih =>
    have hend : ∃ us ws ps, ts = us ++ ts ∧ Simple us ws ps ∧ (argv ++ ws).length < maxArgs ∧
        redirs (.exec argv) rs = redirs (.exec (argv ++ ws)) (rs ++ ps) :=
      ⟨[], [], [], rfl, .nil, by rwa [List.append_nil], by rw [List.append_nil, List.append_nil]⟩
    rw [parseargs, wp_bind, wp_peek, wp_ite]
    refine ⟨fun _ => (wp_pure _).mpr hend, fun _ => ?_⟩
    rw [wp_bind, wp_gettoken, wp_ite]
    cases ts with
    | nil => exact ⟨fun _ => (wp_pure _).mpr hend, fun h => absurd rfl h⟩
    | cons t rest =>
      refine ⟨fun h => ?_, fun _ => ?_⟩
      · cases t with
        | sym s => exact absurd h s.code_ne_zero
        | word w => exact absurd h letter_ne_zero
      · cases t with
        | sym s =>
          rw [wp_ite]
          exact ⟨fun _ => wp_panic _, fun h => absurd s.code_ne_letter h⟩
        | word w =>
          rw [wp_ite, wp_ite]
          refine ⟨fun h => absurd rfl h, fun _ => ⟨fun _ => wp_panic _, fun hlen => ?_⟩⟩
          apply wp_seq (wp_mono (wp_parseredirs n rs) (fun _ _ h => h) fun e t h he => Nat.succ_le_succ (h he))
          rintro out rest' ⟨us, ps, hrest, hus, rfl⟩
          have hlen' : (argv ++ [w]).length < maxArgs := by
            rw [List.length_append, List.length_singleton]
            omega
          apply wp_mono (ih (argv ++ [w]) (rs ++ ps) hlen')
          · rintro cmd rest'' ⟨us', ws, ps', rfl, hs, hargs, rfl⟩
            refine ⟨.word w :: us ++ us', w :: ws, ps ++ ps', ?_, .word w ?_, ?_, ?_⟩
            · change rest = us ++ (us' ++ rest'') at hrest
              rw [hrest, List.cons_append, List.cons_append, List.append_assoc]
            · exact hus.append hs
            · rwa [List.append_assoc] at hargs
            · rw [List.append_assoc, List.append_assoc]
              rfl
          · intro e _ h he
            have := h he
            change rest = us ++ rest' at hrest
            rw [hrest, List.tail_cons, List.length_append]
            omega

theorem wp_parseback (n : Nat) (cmd : Cmd W) :
    wp (parseback (stream fin) n cmd) ts
      (fun out rest => ∃ k, ts = List.replicate k (.sym .amp) ++ rest ∧ out = background k cmd)
      (fun e _ => e = .outOfFuel → n ≤ ts.length) := by
  induction n generalizing cmd ts with
  | zero => exact (wp_throw _).mpr fun _ => Nat.zero_le _
  | succ n ih =>
    rw [parseback, wp_bind, wp_peek, wp_ite]
    refine ⟨fun hp => ?_, fun _ => (wp_pure _).mpr ⟨0, rfl, rfl⟩⟩
    obtain ⟨s, rest, rfl, hs⟩ := peeks_iff.mp hp
    obtain rfl := Sym.eq_amp hs
    rw [wp_bind, wp_gettoken]
    apply wp_mono (ih (.back cmd))
    · rintro out rest' ⟨k, hrest, rfl⟩
      change rest = _ at hrest
      exact ⟨k + 1, by rw [hrest]; rfl, rfl⟩
    · exact fun e _ h he => Nat.succ_le_succ (h he)

/-- A parser of commands of kind `k`, with `n` turns where `4 * ts.length + r` are enough. -/
def Accepts (k : Kind) (n r : Nat) (m : Prog Failure (List (Token W)) (Cmd W)) : Prop :=
  ∀ ts, wp m ts (fun cmd rest => ∃ us, ts = us ++ rest ∧ Derives k us cmd)
    (fun e _ => e = .outOfFuel → n < 4 * ts.length + r)

section Steps
variable {n : Nat}

theorem parsepipe_succ (he : Accepts .exec n 2 (parseexec (stream fin) n))
    (hp : Accepts .pipe n 3 (parsepipe (stream fin) n)) : Accepts .pipe (n + 1) 3 (parsepipe (stream fin) (n + 1)) := by
  intro ts
  rw [parsepipe]
  apply wp_seq (wp_mono (he ts) (fun _ _ h => h) fun e t h he => by have := h he; omega)
  rintro cmd rest ⟨us, rfl, hd⟩
  rw [wp_bind, wp_peek, wp_ite]
  refine ⟨fun hbar => ?_, fun _ => (wp_pure _).mpr ⟨us, rfl, .one hd⟩⟩
  obtain ⟨s, rest', rfl, hs⟩ := peeks_iff.mp hbar
  obtain rfl := Sym.eq_bar hs
  rw [wp_bind, wp_gettoken]
  apply wp_seq (wp_mono (hp rest') (fun _ _ h => h) ?_)
  · rintro right rest ⟨vs, rfl, hr⟩
    refine (wp_pure _).mpr ⟨us ++ .sym .bar :: vs, ?_, .pipe hd hr⟩
    rw [List.append_assoc, List.cons_append]
  · intro e t h he
    have := h he
    rw [List.length_append, List.length_cons]
    omega

theorem parseline_succ (hp : Accepts .pipe n 3 (parsepipe (stream fin) n))
    (hl : Accepts .line n 4 (parseline (stream fin) n)) : Accepts .line (n + 1) 4 (parseline (stream fin) (n + 1)) := by
  intro ts
  rw [parseline]
  apply wp_seq (wp_mono (hp ts) (fun _ _ h => h) fun e t h he => by have := h he; omega)
  rintro cmd rest ⟨us, rfl, hd⟩
  apply wp_seq (wp_mono (wp_parseback n cmd) (fun _ _ h => h) ?_)
  · rintro out rest' ⟨k, rfl, rfl⟩
    rw [wp_bind, wp_peek, wp_ite]
    refine ⟨fun hsemi => ?_, fun _ => (wp_pure _).mpr ⟨_, (List.append_assoc ..).symm, .last hd k⟩⟩
    obtain ⟨s, rest, rfl, hs⟩ := peeks_iff.mp hsemi
    obtain rfl := Sym.eq_semi hs
    rw [wp_bind, wp_gettoken]
    apply wp_seq (wp_mono (hl rest) (fun _ _ h => h) ?_)
    · rintro right rest' ⟨vs, rfl, hr⟩
      refine (wp_pure _).mpr ⟨_, ?_, .list hd k hr⟩
      simp only [List.append_assoc, List.cons_append]
    · intro e t h he
      have := h he
      simp only [List.length_append, List.length_cons]
      omega
  · intro e t h he
    have := h he
    rw [List.length_append]
    omega

theorem parseblock_succ (hl : Accepts .line n 4 (parseline (stream fin) n)) :
    Accepts .exec (n + 1) 1 (parseblock (stream fin) (n + 1)) := by
  intro ts
  rw [parseblock, wp_bind, wp_peek, wp_ite]
  refine ⟨fun hlp => ?_, fun _ => wp_panic _⟩
  obtain ⟨s, rest, rfl, hs⟩ := peeks_iff.mp hlp
  obtain rfl := Sym.eq_lparen hs
  rw [wp_bind, wp_gettoken]
  apply wp_seq (wp_mono (hl rest) (fun _ _ h => h) ?_)
  · rintro cmd rest' ⟨us, rfl, hd⟩
    rw [wp_bind, wp_peek, wp_ite]
    refine ⟨fun hrp => ?_, fun _ => wp_panic _⟩
    obtain ⟨s, rest, rfl, hs⟩ := peeks_iff.mp hrp
    obtain rfl := Sym.eq_rparen hs
    rw [wp_bind, wp_gettoken]
    apply wp_seq (wp_mono (wp_parseredirs n []) (fun _ _ h => h) ?_)
    · rintro out rest' ⟨vs, ps, hrest, hvs, rfl⟩
      change rest = _ at hrest
      refine (wp_pure _).mpr ⟨_, ?_, .block hd hvs⟩
      simp only [hrest, List.append_assoc, List.cons_append]
    · intro e t h he
      have := h he
      simp only [List.length_append, List.length_cons, List.tail_cons] at this ⊢
      omega
  · intro e t h he
    have := h he
    rw [List.length_cons]
    omega

theorem parseexec_succ (hb : Accepts .exec n 1 (parseblock (stream fin) n)) :
    Accepts .exec (n + 1) 2 (parseexec (stream fin) (n + 1)) := by
  intro ts
  rw [parseexec, wp_bind, wp_peek, wp_ite]
  refine ⟨fun _ => wp_mono (hb ts) (fun _ _ h => h) fun e t h he => by have := h he; omega, fun _ => ?_⟩
  apply wp_seq (wp_mono (wp_parseredirs n []) (fun _ _ h => h) fun e t h he => by have := h he; omega)
  rintro ps rest ⟨us, ps', rfl, hus, rfl⟩
  apply wp_mono (wp_parseargs n [] ps (Nat.zero_lt_succ _))
  · rintro cmd rest' ⟨vs, ws, qs, rfl, hs, hn, rfl⟩
    exact ⟨us ++ vs, (List.append_assoc ..).symm, .simple (hus.append hs) hn⟩
  · intro e t h he
    have := h he
    rw [List.length_append]
    omega

end Steps

theorem accepts (fin : W) (n : Nat) : Accepts .line n 4 (parseline (stream fin) n) ∧
    Accepts .pipe n 3 (parsepipe (stream fin) n) ∧ Accepts .exec n 1 (parseblock (stream fin) n) ∧
    Accepts .exec n 2 (parseexec (stream fin) n) := by
  induction n with
  | zero =>
    have hout (k : Kind) (r : Nat) : Accepts k 0 (r + 1) (throw .outOfFuel : Prog Failure (List (Token W)) (Cmd W)) :=
      fun ts => (wp_throw _).mpr fun _ => Nat.succ_pos _
    exact ⟨hout _ 3, hout _ 2, hout _ 0, hout _ 1⟩
  | succ n ih =>
    obtain ⟨hl, hp, hb, he⟩ := ih
    exact ⟨parseline_succ hp hl, parsepipe_succ he hp, parseblock_succ hl, parseexec_succ hb⟩

end Stream

end Xv6.Shell
