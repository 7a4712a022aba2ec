import Mathlib.Logic.Basic

/-!
# Recursive mutexes

A mutex that its holder may take again and has to give back as often.
-/

namespace Vedruino

/-- `held t n` is held by `t`, which has taken it `n` more times. -/
inductive RecMutex (Task : Type*)
  | free
  | held (t : Task) (n : Nat)
  deriving DecidableEq, Repr

namespace RecMutex

variable {Task : Type*} [DecidableEq Task] {t u : Task} {m m' : RecMutex Task}

def take (t : Task) : RecMutex Task → Option (RecMutex Task)
  | free => some (held t 0)
  | held u n => if u = t then some (held t (n + 1)) else none

def give (t : Task) : RecMutex Task → Option (RecMutex Task)
  | free => none
  | held u n => if u = t then some (if n = 0 then free else held t (n - 1)) else none

/-- How often a task has taken it. -/
def holds (t : Task) : RecMutex Task → Nat
  | free => 0
  | held u n => if u = t then n + 1 else 0

theorem eq_held_of_take (h : m.take t = some m') : m' = held t (m.holds t) := by
  cases m with
  | free =>
    cases h
    rfl
  | held u n =>
    rw [take, Option.ite_none_right_eq_some] at h
    obtain ⟨rfl, h⟩ := h
    cases h
    rw [holds, if_pos rfl]

theorem take_held (t : Task) (n : Nat) : (held t n).take t = some (held t (n + 1)) := if_pos rfl

/-- A task can take it where no other task holds it. -/
theorem exists_take (h : ∀ u, u ≠ t → m.holds u = 0) : ∃ m', m.take t = some m' := by
  cases m with
  | free => exact ⟨_, rfl⟩
  | held u n =>
    by_cases hu : u = t
    · exact ⟨_, if_pos hu⟩
    · have hheld := h u hu
      rw [holds, if_pos rfl] at hheld
      exact absurd hheld (Nat.succ_ne_zero n)

theorem give_of_take (h : m.take t = some m') : m'.give t = some m := by
  cases m with
  | free =>
    cases h
    exact if_pos rfl
  | held u n =>
    rw [take, Option.ite_none_right_eq_some] at h
    obtain ⟨rfl, h⟩ := h
    cases h
    rw [give, if_pos rfl, if_neg (Nat.succ_ne_zero n), Nat.add_sub_cancel]

/-- The holder may always take it again. -/
theorem exists_take_of_take (h : m.take t = some m') : ∃ m'', m'.take t = some m'' := by
  cases m with
  | free =>
    cases h
    exact ⟨_, if_pos rfl⟩
  | held u n =>
    rw [take, Option.ite_none_right_eq_some] at h
    obtain ⟨rfl, h⟩ := h
    cases h
    exact ⟨_, if_pos rfl⟩

theorem holds_take (h : m.take t = some m') (u : Task) : m'.holds u = m.holds u + if u = t then 1 else 0 := by
  cases m with
  | free =>
    cases h
    simp only [holds, eq_comm (a := t)]
    split <;> rfl
  | held v n =>
    rw [take, Option.ite_none_right_eq_some] at h
    obtain ⟨rfl, h⟩ := h
    cases h
    simp only [holds, eq_comm (a := v)]
    split <;> rfl

theorem holds_give (h : m.give t = some m') (u : Task) : m'.holds u + (if u = t then 1 else 0) = m.holds u := by
  cases m with
  | free => cases h
  | held v n =>
    rw [give, Option.ite_none_right_eq_some] at h
    obtain ⟨rfl, h⟩ := h
    cases h
    cases n with
    | zero =>
      simp only [if_true, holds, eq_comm (a := v)]
      split <;> rfl
    | succ n =>
      simp only [if_neg (Nat.succ_ne_zero n), Nat.add_sub_cancel, holds, eq_comm (a := v)]
      split <;> rfl

/-- What is left of the further holds when a task gives it back once. -/
theorem exists_give_held (h : m.take t = some m') (k : Nat) :
    ∃ m'', (held t (m.holds t + k)).give t = some m'' ∧ (m'' = m ↔ k = 0) := by
  refine ⟨_, if_pos rfl, ?_⟩
  constructor
  · intro heq
    have hgive : (held t (m.holds t + k)).give t = some m := by rw [give, if_pos rfl, heq]
    have hholds := holds_give hgive t
    rw [if_pos rfl, holds, if_pos rfl] at hholds
    omega
  · rintro rfl
    have hgive := give_of_take h
    rw [eq_held_of_take h, give, if_pos rfl, Option.some_inj] at hgive
    exact hgive

end RecMutex

end Vedruino
