import Mathlib.Logic.Basic

/-!
# Programs of acts and outcomes

A program performs acts one after another and goes on according to the outcomes of the calls it makes to outside code. `wp` is the weakest condition under which every act that a program can get to is allowed in the state that the acts before have made, and `not_wp_iff` that it fails exactly where some path gets to an act that is not.
-/

namespace Vedruino

/-- `choose` is a call whose outcome the program does not know, `halt` a failed assertion or a restart, after which nothing runs. -/
inductive Prog (Act α : Type)
  | pure (a : α)
  | act (x : Act) (p : Prog Act α)
  | choose (k : Nat → Prog Act α)
  | halt

namespace Prog

variable {Act α β σ : Type}

def bind : Prog Act α → (α → Prog Act β) → Prog Act β
  | pure a, f => f a
  | act x p, f => act x (p.bind f)
  | choose k, f => choose fun n => (k n).bind f
  | halt, _ => halt

instance : Monad (Prog Act) where
  pure := pure
  bind := bind

/-- An act by itself. -/
def perform (x : Act) : Prog Act Unit := act x (pure ())

/-- A call whose outcome is a number. -/
def outcome : Prog Act Nat := choose pure

/-- A call that succeeds or not. -/
def succeeds : Prog Act Bool := choose fun n => pure (n ≠ 0)

def assert : Prog Act Unit := choose fun n => if n = 0 then halt else pure ()

def times : Nat → Prog Act Unit → Prog Act Unit
  | 0, _ => pure ()
  | n + 1, p => p.bind fun _ => times n p

/-- Each act of a program as a program of its own. -/
def expand {Act' : Type} (f : Act → Prog Act' Unit) : Prog Act α → Prog Act' α
  | pure a => pure a
  | act x p => (f x).bind fun _ => p.expand f
  | choose k => choose fun n => (k n).expand f
  | halt => halt

/-! ### The acts of a program -/

/-- Every act of the program, whatever the outcomes, has the property. -/
def All (P : Act → Prop) : Prog Act α → Prop
  | pure _ => True
  | act x p => P x ∧ All P p
  | choose k => ∀ n, All P (k n)
  | halt => True

/-- Some outcomes take the program to the end, with this result. -/
def Ends (a : α) : Prog Act α → Prop
  | pure b => b = a
  | act _ p => Ends a p
  | choose k => ∃ n, Ends a (k n)
  | halt => False

variable {P P' : Act → Prop} {p : Prog Act α} {f : α → Prog Act β} {a : α}

theorem All.mono (h : p.All P) (hP : ∀ x, P x → P' x) : p.All P' := by
  induction p with
  | pure _ => trivial
  | act x p ih => exact ⟨hP x h.1, ih h.2⟩
  | choose k ih => exact fun n => ih n (h n)
  | halt => trivial

theorem All.bind (hp : p.All P) (hf : ∀ a, (f a).All P) : (p >>= f).All P := by
  induction p with
  | pure a => exact hf a
  | act x p ih => exact ⟨hp.1, ih hp.2⟩
  | choose k ih => exact fun n => ih n (hp n)
  | halt => trivial

theorem All.times {q : Prog Act Unit} (h : q.All P) (n : Nat) : (times n q).All P := by
  induction n with
  | zero => trivial
  | succ n ih => exact All.bind h fun _ => ih

theorem All.expand {Act' : Type} {P : Act' → Prop} {f : Act → Prog Act' Unit} (hf : ∀ x, (f x).All P) (p : Prog Act α) :
    (p.expand f).All P := by
  induction p with
  | pure a => trivial
  | act x p ih => exact All.bind (hf x) fun _ => ih
  | choose k ih => exact ih
  | halt => trivial

theorem all_seq {p : Prog Act Unit} {q : Prog Act β} (hp : p.All P) (hq : q.All P) : (do p; q).All P := hp.bind fun _ => hq

theorem all_branch {p : Prog Act Bool} {q r : Prog Act β} (hp : p.All P) (hq : q.All P) (hr : r.All P) :
    (do if ← p then q else r).All P := by
  refine hp.bind fun b => ?_
  cases b with
  | true => exact hq
  | false => exact hr

theorem all_outcome {k : Nat → Prog Act β} (hk : ∀ n, (k n).All P) : (outcome >>= k).All P := fun n => hk n

theorem all_succeeds : succeeds.All P := fun _ => trivial

theorem all_assert : assert.All P := by
  intro n
  cases n <;> trivial

theorem Ends.bind {b : β} (hp : p.Ends a) (hf : (f a).Ends b) : (p >>= f).Ends b := by
  induction p with
  | pure a' =>
    obtain rfl : a' = a := hp
    exact hf
  | act x p ih => exact ih hp
  | choose k ih =>
    obtain ⟨n, hn⟩ := hp
    exact ⟨n, ih n hn⟩
  | halt => exact hp.elim

theorem assert_ends : (assert : Prog Act Unit).Ends () := ⟨1, rfl⟩

theorem Ends.times {q : Prog Act Unit} (h : q.Ends ()) (n : Nat) : (times n q).Ends () := by
  induction n with
  | zero => rfl
  | succ n ih => exact Ends.bind h ih

/-! ### Weakest preconditions -/

/-- Acts are allowed by `ok` and change a state by `next`. -/
def wp (ok : σ → Act → Prop) (next : σ → Act → σ) : Prog Act α → (α → σ → Prop) → σ → Prop
  | pure a, Q, s => Q a s
  | act x p, Q, s => ok s x ∧ wp ok next p Q (next s x)
  | choose k, Q, s => ∀ n, wp ok next (k n) Q s
  | halt, _, _ => True

/-- Some outcomes take the program from `s` to the act `x` in the state `t`. -/
inductive Reaches (next : σ → Act → σ) : Prog Act α → σ → Act → σ → Prop
  | here {x p s} : Reaches next (act x p) s x s
  | act {x p s y t} : Reaches next p (next s x) y t → Reaches next (act x p) s y t
  | choose {k s y t} (n : Nat) : Reaches next (k n) s y t → Reaches next (choose k) s y t

variable {ok : σ → Act → Prop} {next : σ → Act → σ} {Q : α → σ → Prop} {s : σ}

theorem wp_bind {Q : β → σ → Prop} : (p >>= f).wp ok next Q s ↔ p.wp ok next (fun a => (f a).wp ok next Q) s := by
  induction p generalizing s with
  | pure a => exact Iff.rfl
  | act x p ih => exact and_congr_right fun _ => ih
  | choose k ih => exact forall_congr' fun n => ih n
  | halt => exact Iff.rfl

theorem wp_mono {Q' : α → σ → Prop} (h : p.wp ok next Q s) (hQ : ∀ a t, Q a t → Q' a t) : p.wp ok next Q' s := by
  induction p generalizing s with
  | pure a => exact hQ a s h
  | act x p ih => exact ⟨h.1, ih h.2⟩
  | choose k ih => exact fun n => ih n (h n)
  | halt => trivial

@[simp] theorem wp_perform {x : Act} {Q : Unit → σ → Prop} :
    (perform x).wp ok next Q s ↔ ok s x ∧ Q () (next s x) := Iff.rfl

@[simp] theorem wp_assert {Q : Unit → σ → Prop} : assert.wp ok next Q s ↔ Q () s := by
  constructor
  · intro h
    exact h 1
  · intro h n
    cases n with
    | zero => trivial
    | succ n => exact h

theorem wp_succeeds {Q : Bool → σ → Prop} : succeeds.wp ok next Q s ↔ Q false s ∧ Q true s := by
  constructor
  · intro h
    exact ⟨h 0, h 1⟩
  · intro h n
    cases n with
    | zero => exact h.1
    | succ n => exact h.2

/-- Acts that are allowed in a state and leave it as it is. -/
theorem wp_of_all (hp : p.All P) (hP : ∀ x, P x → ok s x ∧ next s x = s) (hQ : ∀ a, Q a s) : p.wp ok next Q s := by
  induction p with
  | pure a => exact hQ a
  | act x p ih =>
    obtain ⟨hok, hnext⟩ := hP x hp.1
    refine ⟨hok, ?_⟩
    rw [hnext]
    exact ih hp.2
  | choose k ih => exact fun n => ih n (hp n)
  | halt => trivial

theorem post_of_wp (hp : p.All P) (hP : ∀ x, P x → next s x = s) (hends : p.Ends a) (h : p.wp ok next Q s) : Q a s := by
  induction p with
  | pure b =>
    obtain rfl : b = a := hends
    exact h
  | act x p ih =>
    have hrest := h.2
    rw [hP x hp.1] at hrest
    exact ih hp.2 hends hrest
  | choose k ih =>
    obtain ⟨n, hn⟩ := hends
    exact ih n (hp n) hn (h n)
  | halt => exact hends.elim

theorem not_wp_iff : ¬ p.wp ok next (fun _ _ => True) s ↔ ∃ x t, Reaches next p s x t ∧ ¬ ok t x := by
  induction p generalizing s with
  | pure a => exact iff_of_false (fun h => h trivial) fun ⟨x, t, h, _⟩ => nomatch h
  | act x p ih =>
    rw [wp, not_and_or, ih]
    constructor
    · rintro (hok | ⟨y, t, hy, hok⟩)
      · exact ⟨x, s, .here, hok⟩
      · exact ⟨y, t, .act hy, hok⟩
    · rintro ⟨y, t, hy, hok⟩
      cases hy with
      | here => exact .inl hok
      | act hy => exact .inr ⟨y, t, hy, hok⟩
  | choose k ih =>
    rw [wp, not_forall]
    simp only [ih]
    constructor
    · rintro ⟨n, x, t, hx, hok⟩
      exact ⟨x, t, .choose n hx, hok⟩
    · rintro ⟨x, t, hx, hok⟩
      cases hx with
      | choose n hx => exact ⟨n, x, t, hx, hok⟩
  | halt => exact iff_of_false (fun h => h trivial) fun ⟨x, t, h, _⟩ => nomatch h

end Prog

end Vedruino
