import Mathlib.Data.List.Induction

/-!
# The serial monitor

`mon.py` copies the serial port to `stdout` byte by byte. Without `--cr` it holds a carriage return back until it sees the next byte, and drops it before a line feed.
-/

namespace Vedruino.Log

def cr : UInt8 := 0x0d

def lf : UInt8 := 0x0a

/-- The last byte read and what has been written to `sys.stdout.buffer`. -/
structure Mon where
  /-- `prev`, which is `b''` at the start. -/
  prev : Option UInt8
  written : List UInt8
  deriving DecidableEq, Repr

namespace Mon

def start : Mon := ⟨none, []⟩

/-- The body of the loop, with `args.cr` and the byte that `s.read(1)` returns. -/
def mainLoop (keepCr : Bool) (m : Mon) (c : UInt8) : Mon :=
  let written := if ¬ keepCr ∧ m.prev = some cr ∧ c ≠ lf then m.written ++ [cr] else m.written
  if ¬ keepCr ∧ c = cr then ⟨some c, written⟩ else ⟨some c, written ++ [c]⟩

def run (keepCr : Bool) (bs : List UInt8) : Mon := bs.foldl (mainLoop keepCr) start

end Mon

/-- Every CR LF becomes LF. -/
def crlfToLf : List UInt8 → List UInt8
  | [] => []
  | b :: bs => if b = cr ∧ bs.head? = some lf then crlfToLf bs else b :: crlfToLf bs

/-- All but a carriage return at the very end. -/
def released (bs : List UInt8) : List UInt8 := if bs.getLast? = some cr then bs.dropLast else bs

private theorem released_append (bs : List UInt8) (c : UInt8) : released (bs ++ [c]) = if c = cr then bs else bs ++ [c] := by
  simp only [released, List.getLast?_concat, List.dropLast_concat, Option.some.injEq]

/-- A line feed is never cut off from the carriage return before it. -/
theorem crlfToLf_append {as bs : List UInt8} (h : as.getLast? = some cr → bs.head? ≠ some lf) :
    crlfToLf (as ++ bs) = crlfToLf as ++ crlfToLf bs := by
  have hcons : ∀ b bs, crlfToLf (b :: bs) = if b = cr ∧ bs.head? = some lf then crlfToLf bs else b :: crlfToLf bs :=
    fun _ _ => rfl
  induction as with
  | nil => rfl
  | cons a as ih =>
    cases as with
    | nil =>
      have hkept : ¬ (a = cr ∧ bs.head? = some lf) := by
        intro hdrop
        refine h ?_ hdrop.2
        rw [hdrop.1]
        rfl
      rw [List.singleton_append, hcons, if_neg hkept, hcons, if_neg (by simp)]
      rfl
    | cons a' as =>
      have hrest := ih fun hlast => h (by rwa [List.getLast?_cons_cons])
      rw [List.cons_append, hcons a, hrest, hcons a, List.cons_append, List.head?_cons, List.head?_cons]
      split
      · rfl
      · rfl

private theorem crlfToLf_concat {bs : List UInt8} {c : UInt8} (h : bs.getLast? = some cr → c ≠ lf) :
    crlfToLf (bs ++ [c]) = crlfToLf bs ++ [c] := by
  rw [crlfToLf_append (by simpa using h)]
  simp [crlfToLf]

namespace Mon

theorem run_append (keepCr : Bool) (bs : List UInt8) (c : UInt8) :
    run keepCr (bs ++ [c]) = (run keepCr bs).mainLoop keepCr c := by
  rw [run, List.foldl_append]
  rfl

/-- The state after the bytes read so far. -/
def after (keepCr : Bool) (bs : List UInt8) : Mon := ⟨bs.getLast?, if keepCr then bs else crlfToLf (released bs)⟩

theorem mainLoop_after (keepCr : Bool) (bs : List UInt8) (c : UInt8) :
    (after keepCr bs).mainLoop keepCr c = after keepCr (bs ++ [c]) := by
  cases keepCr with
  | true => simp [mainLoop, after]
  | false =>
    rw [after, after, released_append, List.getLast?_concat]
    by_cases hlast : bs.getLast? = some cr
    · -- a carriage return is held back
      obtain ⟨as, rfl⟩ := List.getLast?_eq_some_iff.1 hlast
      rw [released_append, if_pos rfl]
      have hheld : crlfToLf (as ++ [cr]) = crlfToLf as ++ [cr] := crlfToLf_concat fun _ => by decide
      by_cases hc : c = lf
      · subst hc
        have hpair : crlfToLf (as ++ [cr, lf]) = crlfToLf as ++ [lf] := crlfToLf_append fun _ => by decide
        rw [if_neg (by decide), List.append_assoc]
        simp [mainLoop, hpair, show lf ≠ cr by decide]
      · have hnext : crlfToLf (as ++ [cr] ++ [c]) = crlfToLf (as ++ [cr]) ++ [c] := crlfToLf_concat fun _ => hc
        by_cases hcr : c = cr
        · simp [mainLoop, hcr, hheld, show cr ≠ lf by decide]
        · rw [if_neg hcr, if_neg Bool.false_ne_true, hnext, hheld]
          simp [mainLoop, hc, hcr]
    · have hnext : crlfToLf (bs ++ [c]) = crlfToLf bs ++ [c] := crlfToLf_concat fun hcr => absurd hcr hlast
      rw [released, if_neg hlast]
      by_cases hcr : c = cr
      · simp [mainLoop, hlast, hcr]
      · simp [mainLoop, hlast, hcr, hnext]

theorem run_eq (keepCr : Bool) (bs : List UInt8) : run keepCr bs = after keepCr bs := by
  induction bs using List.reverseRecOn with
  | nil => cases keepCr <;> rfl
  | append_singleton bs c ih => rw [run_append, ih, mainLoop_after]

end Mon

/-- **Whatever `mon.py` has read so far, without `--cr` it has written it with every CR LF turned into LF, but for a carriage return at the very end, and with `--cr` it has written it as it is.** -/
theorem mon_converts (read : List UInt8) :
    (Mon.run false read).written = crlfToLf (released read) ∧ (Mon.run true read).written = read := by
  rw [Mon.run_eq, Mon.run_eq]
  exact ⟨rfl, rfl⟩

end Vedruino.Log
