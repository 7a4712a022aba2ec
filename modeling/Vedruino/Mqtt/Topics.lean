import Vedruino.Lib.SortSearch

/-!
# The table of topics

`pk_mqtt_set_subscribed_topics` sorts the array it is given by name, and `find_callback` searches it for a name.
-/

namespace Vedruino.Mqtt

/-- A C string without its terminating zero. -/
structure CStr where
  bytes : List UInt8
  noZero : 0 ∉ bytes

theorem CStr.ext {a b : CStr} (h : a.bytes = b.bytes) : a = b := by
  obtain ⟨as, ha⟩ := a
  obtain ⟨bs, hb⟩ := b
  obtain rfl : as = bs := h
  rfl

instance : DecidableEq CStr := fun a b => decidable_of_iff (a.bytes = b.bytes) ⟨CStr.ext, fun h => by rw [h]⟩

/-- The string at the start of a piece of memory. -/
def cStr (mem : List UInt8) : CStr where
  bytes := mem.takeWhile (· ≠ 0)
  noZero h := by simpa using List.all_eq_true.1 List.all_takeWhile 0 h

/-- `strcmp` on the bytes before the zeros. -/
def strcmpBytes : List UInt8 → List UInt8 → Int
  | [], [] => 0
  | [], b :: _ => -b.toNat
  | a :: _, [] => a.toNat
  | a :: as, b :: bs => if a = b then strcmpBytes as bs else a.toNat - b.toNat

def strcmp (a b : CStr) : Int := strcmpBytes a.bytes b.bytes

/-- `pkTopic_t`; the callback may be missing. -/
structure PkTopic (Cb : Type) where
  name : CStr
  callback : Option Cb
  qos : Int

variable {Cb : Type}

def topicPairCmp (a b : PkTopic Cb) : Int := strcmp a.name b.name

inductive BrokerReq
  | unsubscribe (name : CStr)
  | subscribe (name : CStr) (qos : Int)

/-- `pk_mqtt_set_subscribed_topics` with the mutex taken: its result, what it asks of the broker and the new table. -/
def pkMqttSetSubscribedTopics (S : SortSearch (PkTopic Cb)) (accepted : BrokerReq → Bool) (subsTopics topics : List (PkTopic Cb)) :
    Bool × List BrokerReq × List (PkTopic Cb) :=
  let table := S.qsort topicPairCmp topics
  let reqs := subsTopics.map (fun p => .unsubscribe p.name) ++ table.map fun p => .subscribe p.name p.qos
  (reqs.all accepted, reqs, table)

/-- `find_callback` with the mutex taken. -/
def findCallback (S : SortSearch (PkTopic Cb)) (subsTopics : List (PkTopic Cb)) (name : CStr) : Option (PkTopic Cb) :=
  S.bsearch topicPairCmp ⟨name, none, 0⟩ subsTopics

theorem cStr_of_prefix {a : CStr} {mem : List UInt8} (h : a.bytes ++ [0] <+: mem) : cStr mem = a := by
  obtain ⟨rest, rfl⟩ := h
  have hall : ∀ b ∈ a.bytes, decide (b ≠ 0) = true := by
    intro b hb
    refine decide_eq_true fun h => a.noZero ?_
    rwa [← h]
  apply CStr.ext
  show (a.bytes ++ [0] ++ rest).takeWhile _ = a.bytes
  rw [List.append_assoc, List.takeWhile_append_of_pos hall]
  exact List.append_nil _

theorem cStr_of_noZero (a : CStr) : cStr (a.bytes ++ [0]) = a := cStr_of_prefix (List.prefix_refl _)

theorem toNat_pos {b : UInt8} {bs : List UInt8} (h : 0 ∉ b :: bs) : 0 < b.toNat := by
  rw [List.mem_cons, not_or, ← UInt8.toNat_inj] at h
  exact Nat.pos_of_ne_zero (Ne.symm h.1)

theorem toNat_ne {a b : UInt8} (h : a ≠ b) : a.toNat ≠ b.toNat := fun heq => h (UInt8.toNat_inj.1 heq)

theorem strcmpBytes_eq_zero {as bs : List UInt8} (ha : 0 ∉ as) (hb : 0 ∉ bs) : strcmpBytes as bs = 0 ↔ as = bs := by
  induction as generalizing bs with
  | nil =>
    cases bs with
    | nil => simp [strcmpBytes]
    | cons b bs =>
      have := toNat_pos hb
      simp only [strcmpBytes, reduceCtorEq, iff_false]
      omega
  | cons a as ih =>
    cases bs with
    | nil =>
      have := toNat_pos ha
      simp only [strcmpBytes, reduceCtorEq, iff_false]
      omega
    | cons b bs =>
      rw [strcmpBytes, List.cons.injEq]
      by_cases hab : a = b
      · rw [if_pos hab, ih (fun h => ha (List.mem_cons_of_mem _ h)) fun h => hb (List.mem_cons_of_mem _ h)]
        exact (and_iff_right hab).symm
      · have := toNat_ne hab
        rw [if_neg hab]
        simp only [hab, false_and, iff_false]
        omega

private theorem strcmpBytes_total (as bs : List UInt8) : strcmpBytes as bs ≤ 0 ∨ strcmpBytes bs as ≤ 0 := by
  induction as generalizing bs with
  | nil =>
    cases bs with
    | nil => exact .inl le_rfl
    | cons b bs =>
      simp only [strcmpBytes]
      omega
  | cons a as ih =>
    cases bs with
    | nil =>
      simp only [strcmpBytes]
      omega
    | cons b bs =>
      simp only [strcmpBytes]
      by_cases hab : a = b
      · rw [if_pos hab, if_pos hab.symm]
        exact ih bs
      · rw [if_neg hab, if_neg (Ne.symm hab)]
        omega

private theorem strcmpBytes_trans {as bs cs : List UInt8} (ha : 0 ∉ as) (hb : 0 ∉ bs) (hab : strcmpBytes as bs ≤ 0)
    (hbc : strcmpBytes bs cs ≤ 0) : strcmpBytes as cs ≤ 0 := by
  induction as generalizing bs cs with
  | nil =>
    cases cs with
    | nil => exact le_rfl
    | cons c cs =>
      simp only [strcmpBytes]
      omega
  | cons a as ih =>
    have hapos := toNat_pos ha
    cases bs with
    | nil =>
      simp only [strcmpBytes] at hab
      omega
    | cons b bs =>
      have hbpos := toNat_pos hb
      cases cs with
      | nil =>
        simp only [strcmpBytes] at hbc
        omega
      | cons c cs =>
        simp only [strcmpBytes] at hab hbc ⊢
        by_cases h₁ : a = b
        · subst h₁
          rw [if_pos rfl] at hab
          by_cases h₂ : a = c
          · rw [if_pos h₂] at hbc ⊢
            exact ih (fun h => ha (List.mem_cons_of_mem _ h)) (fun h => hb (List.mem_cons_of_mem _ h)) hab hbc
          · rwa [if_neg h₂] at hbc ⊢
        · rw [if_neg h₁] at hab
          have := toNat_ne h₁
          by_cases h₂ : b = c
          · subst h₂
            rwa [if_neg h₁]
          · rw [if_neg h₂] at hbc
            have := toNat_ne h₂
            rw [if_neg (by rintro rfl; omega)]
            omega

theorem strcmp_eq_zero {a b : CStr} : strcmp a b = 0 ↔ a = b := by
  rw [strcmp, strcmpBytes_eq_zero a.noZero b.noZero]
  exact ⟨CStr.ext, fun h => by rw [h]⟩

theorem topicPairCmp_orders : Orders (@topicPairCmp Cb) where
  total a b := strcmpBytes_total a.name.bytes b.name.bytes
  trans a b _ := strcmpBytes_trans a.name.noZero b.name.noZero

theorem findCallback_of_mem (S : SortSearch (PkTopic Cb)) {topics : List (PkTopic Cb)} {p : PkTopic Cb} (hp : p ∈ topics) :
    ∃ q ∈ topics, q.name = p.name ∧ findCallback S (S.qsort topicPairCmp topics) p.name = some q := by
  have heq : topicPairCmp ⟨p.name, none, 0⟩ p = 0 := strcmp_eq_zero.2 rfl
  obtain ⟨q, hq, hkey, hfind⟩ := S.exists_of_mem topicPairCmp_orders hp heq
  exact ⟨q, hq, (strcmp_eq_zero.1 hkey).symm, hfind⟩

end Vedruino.Mqtt
