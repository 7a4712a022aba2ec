import Mathlib.Logic.Relation
import Mathlib.Order.Basic

/-!
# Non-recursive mutexes and the lock order

A snapshot of the locks of a system says which task holds each mutex and which mutex each task is trying to take. A task waits for the holder of the mutex it wants, itself included: a non-recursive mutex taken twice is a wait for oneself. The system is deadlocked when waiting runs in a circle. The lock-order rule excludes it: when every blocked task wants a mutex above all those it holds, no circle exists.
-/

namespace Vedruino

/-- Who holds each mutex, and which mutex each task is trying to take. -/
structure Locks (Task Mutex : Type*) where
  holder : Mutex → Option Task
  wants : Task → Option Mutex

namespace Locks

variable {Task Mutex : Type*}

/-- Task `t` wants a mutex that task `u` holds. -/
def WaitsFor (s : Locks Task Mutex) (t u : Task) : Prop :=
  ∃ m, s.wants t = some m ∧ s.holder m = some u

/-- Some task waits for itself, directly or through a chain of other tasks. -/
def Deadlocked (s : Locks Task Mutex) : Prop := ∃ t, Relation.TransGen s.WaitsFor t t

/-- Every blocked task wants a mutex above all those it holds. -/
def Ordered [LT Mutex] (s : Locks Task Mutex) : Prop :=
  ∀ t u m m', s.wants t = some m → s.holder m = some u → s.holder m' = some t → m' < m

theorem deadlocked_of_self {s : Locks Task Mutex} {t : Task} (h : s.WaitsFor t t) : s.Deadlocked :=
  ⟨t, .single h⟩

theorem deadlocked_of_pair {s : Locks Task Mutex} {t u : Task} (htu : s.WaitsFor t u)
    (hut : s.WaitsFor u t) : s.Deadlocked :=
  ⟨t, .tail (.single htu) hut⟩

theorem Ordered.chain [Preorder Mutex] {s : Locks Task Mutex} (hs : s.Ordered) {t u : Task}
    (h : Relation.TransGen s.WaitsFor t u) :
    ∃ m m', s.wants t = some m ∧ s.holder m' = some u ∧ m ≤ m' ∧ ∃ v, s.holder m = some v := by
  induction h with
  | single h =>
    obtain ⟨m, hw, hh⟩ := h
    exact ⟨m, m, hw, hh, le_rfl, _, hh⟩
  | tail _ h ih =>
    obtain ⟨m, m', hw, hh, hle, hheld⟩ := ih
    obtain ⟨k, hk, hkh⟩ := h
    exact ⟨m, k, hw, hkh, hle.trans (hs _ _ _ _ hk hkh hh).le, hheld⟩

/-- **The lock-order rule.** Where every blocked task wants a mutex above those it holds, nobody waits in a circle. -/
theorem Ordered.not_deadlocked [Preorder Mutex] {s : Locks Task Mutex} (hs : s.Ordered) :
    ¬ s.Deadlocked := by
  intro h
  obtain ⟨t, h⟩ := h
  obtain ⟨m, m', hw, hh, hle, v, hheld⟩ := hs.chain h
  exact absurd (hs t v m m' hw hheld hh) (not_lt_of_ge hle)

end Locks

end Vedruino
