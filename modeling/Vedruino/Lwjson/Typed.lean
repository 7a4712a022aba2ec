import Vedruino.Lwjson.Find

/-!
# Tokens by their types

`pk_lwjson.c` is what the other modules use of the library. It handles the codes of the parser and looks up tokens with a mask of the types that may be found; the macros of `lwjson.h` then read the member of the union that the type of the token says.
-/

namespace Vedruino.Lwjson

variable {R : Type}

/-! ### The members of the union -/

section

-- `none` stands for a read of a member that was not the last one written.

def U.numInt? : U R → Option (BitVec 64)
  | .zero => some 0
  | .numInt b => some b
  | _ => none

def U.numReal? [LwReal R] : U R → Option R
  | .zero => some (LwReal.ofInt 0)
  | .numReal x => some x
  | _ => none

def U.str? : U R → Option (List UInt8 × Nat)
  | .str value n => some (value, n)
  | _ => none

variable (token : Option (Token R))

def lwjsonGetValInt : Option (BitVec 64) :=
  match token with
  | some t => if t.type = .numInt then t.u.numInt? else some 0
  | none => some 0

def lwjsonGetValReal [LwReal R] : Option R :=
  match token with
  | some t => if t.type = .numReal then t.u.numReal? else some (LwReal.ofInt 0)
  | none => some (LwReal.ofInt 0)

def lwjsonGetFirstChild : Option (Option Ref) :=
  match token with
  | some t => if t.type = .object ∨ t.type = .array then t.firstChild else some none
  | none => some none

/-- The string with its length, or `NULL`. -/
def lwjsonGetValString : Option (Option (List UInt8 × Nat)) :=
  match token with
  | some t => if t.type = .string then t.u.str?.map some else some none
  | none => some none

def lwjsonGetValStringLength : Option Nat :=
  match token with
  | some t => if t.type = .string then t.u.str?.map Prod.snd else some 0
  | none => some 0

/-- `none` stands also for a read out of bounds. -/
def strncmp? (n : Nat) (a b : List UInt8) : Option Bool :=
  match strncmp n a b with
  | .ok same => some same
  | _ => none

def lwjsonStringCompare (str : List UInt8) : Option Bool :=
  match token with
  | some t => if t.type = .string then t.u.str?.bind fun s => strncmp? s.2 s.1 str else some false
  | none => some false

def lwjsonStringCompareN (str : List UInt8) (len : Nat) : Option Bool :=
  match token with
  | some t =>
    if t.type = .string then t.u.str?.bind fun s => if len ≤ s.2 then strncmp? len s.1 str else some false else some false
  | none => some false

end

def lwjsonGetTokensUsed (lwobj : LwjsonT R) : Nat := lwobj.nextFreeTokenPos + 1

/-! ### `pk_lwjson.c` -/

/-- The result and what is logged; `none` is a failed assertion. -/
def pkLwjsonRetHandle : Lwjsonr → Option (Bool × List (List Char))
  | .ok => some (true, [])
  | .errPar => none
  | .errJson => some (false, ["malformed json".toList])
  | .errMem => some (false, ["memory error".toList])
  | .err => some (false, ["generic error".toList])
  | .streamWaitFirstChar | .streamDone | .streamInProg => none

/-- The number of a type in `lwjson_type_t`. -/
def LwjsonType.bits : LwjsonType → BitVec 32
  | .string => 0
  | .numInt => 1
  | .numReal => 2
  | .object => 3
  | .array => 4
  | .true_ => 5
  | .false_ => 6
  | .null => 7

def pkLwjsonString : BitVec 32 := LwjsonType.string.bits

def pkLwjsonInt : BitVec 32 := LwjsonType.numInt.bits

def pkLwjsonReal : BitVec 32 := LwjsonType.numReal.bits

def pkLwjsonObject : BitVec 32 := LwjsonType.object.bits

def pkLwjsonArray : BitVec 32 := LwjsonType.array.bits

def pkLwjsonBool : BitVec 32 := LwjsonType.true_.bits

def pkLwjsonNull : BitVec 32 := LwjsonType.null.bits

def pkLwjsonBitsPerType : Nat := 3

def pkLwjsonNullable : BitVec 32 := 1 <<< pkLwjsonBitsPerType

def pkLwjsonTypeIgnore : BitVec 32 := 1 <<< (pkLwjsonBitsPerType + 1)

def pkLwjsonTypeMask : BitVec 32 := 7

def notFoundMsg : List UInt8 := " not found".toList.map ch

def invalidTypeMsg : List UInt8 := " has invalid type".toList.map ch

/-- The token and what is logged; `none` is an access out of bounds. -/
def pkLwjsonFindtEx (lwobj : LwjsonT R) (token : Option Ref) (path : List UInt8) (typeMask : BitVec 32) :
    Option (Option Ref × List (List UInt8)) :=
  let pathText := path.takeWhile (· ≠ 0)
  match lwjsonFindEx lwobj token (some path) with
  | none => none
  | some none => some (none, [pathText ++ notFoundMsg])
  | some (some tok) =>
    (lwobj.deref tok).map fun t =>
      if typeMask &&& pkLwjsonTypeIgnore ≠ 0 then (some tok, [])
      else if typeMask &&& pkLwjsonNullable ≠ 0 ∧ t.type = .null then (some tok, [])
      else if t.type.bits = typeMask &&& pkLwjsonTypeMask then (some tok, [])
      else if t.type = .false_ ∧ typeMask &&& pkLwjsonTypeMask = pkLwjsonBool then (some tok, [])
      else (none, [pathText ++ invalidTypeMsg])

def pkLwjsonFindt (lwobj : LwjsonT R) (path : List UInt8) (typeMask : BitVec 32) : Option (Option Ref × List (List UInt8)) :=
  pkLwjsonFindtEx lwobj none path typeMask

/-! ### Masks -/

/-- The types that a mask of the header names. -/
inductive Kind
  | string | int | real | object | array | bool | null
  deriving DecidableEq, Repr

def Kind.bits : Kind → BitVec 32
  | .string => pkLwjsonString
  | .int => pkLwjsonInt
  | .real => pkLwjsonReal
  | .object => pkLwjsonObject
  | .array => pkLwjsonArray
  | .bool => pkLwjsonBool
  | .null => pkLwjsonNull

/-- There is no type `bool`, but one for each of its values. -/
def Kind.types : Kind → List LwjsonType
  | .string => [.string]
  | .int => [.numInt]
  | .real => [.numReal]
  | .object => [.object]
  | .array => [.array]
  | .bool => [.true_, .false_]
  | .null => [.null]

/-- The masks that `pk_lwjson.h` allows. -/
inductive Mask
  | only (k : Kind)
  | orNull (k : Kind)
  | any (others : BitVec 32)
  deriving DecidableEq, Repr

def Mask.bits : Mask → BitVec 32
  | .only k => k.bits
  | .orNull k => k.bits ||| pkLwjsonNullable
  | .any others => others ||| pkLwjsonTypeIgnore

/-- The token may have that type. -/
def Mask.Allows : Mask → LwjsonType → Prop
  | .only k, type => type ∈ k.types
  | .orNull k, type => type ∈ k.types ∨ type = .null
  | .any _, _ => True

instance (m : Mask) (type : LwjsonType) : Decidable (m.Allows type) :=
  match m with
  | .only k => inferInstanceAs (Decidable (type ∈ k.types))
  | .orNull k => inferInstanceAs (Decidable (type ∈ k.types ∨ type = .null))
  | .any _ => inferInstanceAs (Decidable True)

private theorem any_and_ignore (others : BitVec 32) : (others ||| pkLwjsonTypeIgnore) &&& pkLwjsonTypeIgnore ≠ 0 := by
  intro hzero
  have hbit := congrArg (·.getLsbD 4) hzero
  simp [pkLwjsonTypeIgnore, pkLwjsonBitsPerType] at hbit

/-- What `pk_lwjson_findt_ex` does with a token that it has found. -/
theorem mask_spec {α : Type} (m : Mask) (type : LwjsonType) (found invalid : α) :
    (if m.bits &&& pkLwjsonTypeIgnore ≠ 0 then found
      else if m.bits &&& pkLwjsonNullable ≠ 0 ∧ type = .null then found
      else if type.bits = m.bits &&& pkLwjsonTypeMask then found
      else if type = .false_ ∧ m.bits &&& pkLwjsonTypeMask = pkLwjsonBool then found
      else invalid) = if m.Allows type then found else invalid := by
  cases m with
  | any others => exact (if_pos (any_and_ignore others)).trans (if_pos trivial).symm
  | only k => cases k <;> cases type <;> rfl
  | orNull k => cases k <;> cases type <;> rfl

/-! ### What the getters read -/

/-- The member of the union is the one for the type. -/
def Label.Typed (l : Label R) : Prop :=
  match l.u with
  | .zero => l.type ≠ .string ∧ l.type ≠ .numInt ∧ l.type ≠ .numReal
  | .str value n => l.type = .string ∧ 0 ∉ value ∧ n = value.length
  | .numReal _ => l.type = .numReal
  | .numInt _ => l.type = .numInt
  | .firstChild _ => False

theorem typed_zero (name : Option (List UInt8 × Nat)) {type : LwjsonType}
    (h : type ≠ .string ∧ type ≠ .numInt ∧ type ≠ .numReal) : (⟨name, type, .zero⟩ : Label R).Typed := h

theorem Scalar.typed [LwReal R] {cs : List UInt8} {type : LwjsonType} {u : U R} (h : Scalar cs type u) (h0 : 0 ∉ cs)
    (name : Option (List UInt8 × Nat)) : (⟨name, type, u⟩ : Label R).Typed := by
  cases h with
  | string => exact ⟨rfl, fun hmem => h0 (List.mem_cons_of_mem _ (List.mem_append_left _ hmem)), rfl⟩
  | true_ => exact typed_zero _ (by decide)
  | false_ => exact typed_zero _ (by decide)
  | null => exact typed_zero _ (by decide)
  | number =>
    rw [NumText.value]
    split
    · rfl
    · rfl

theorem typed_of_container {type : LwjsonType} (h : IsContainer type) (name : Option (List UInt8 × Nat)) :
    (⟨name, type, .zero⟩ : Label R).Typed := by
  rcases h with rfl | rfl
  · exact typed_zero _ (by decide)
  · exact typed_zero _ (by decide)

theorem Items.typed [LwReal R] {type : LwjsonType} {closed free : Bool} {s : List UInt8} {f : Forest (Label R)}
    (h : Items type closed free s f) (h0 : 0 ∉ s) : f.All Label.Typed := by
  induction h with
  | close => trivial
  | cut => trivial
  | comma _ _ ih => exact ih fun hmem => h0 (List.mem_append_right _ (List.mem_cons_of_mem _ hmem))
  | scalar _ _ hu _ ih =>
    rw [List.mem_append, List.mem_append, List.mem_append, not_or, not_or, not_or] at h0
    exact ⟨hu.typed h0.2.2.1 _, trivial, ih h0.2.2.2⟩
  | container _ _ htype _ _ _ ihinner ih =>
    rw [List.mem_append, List.mem_append, List.mem_cons, List.mem_append, not_or, not_or, not_or, not_or] at h0
    exact ⟨typed_of_container htype _, ihinner h0.2.2.2.1, ih h0.2.2.2.2⟩

theorem Document.typed [LwReal R] {s : List UInt8} {tree : Tree R} (h : Document s tree) (h0 : 0 ∉ s) :
    tree.1.Typed ∧ tree.2.All Label.Typed := by
  cases h with
  | closed _ _ htype _ hitems =>
    rw [List.mem_append, List.mem_cons, List.mem_append, not_or, not_or, not_or] at h0
    exact ⟨typed_of_container htype _, hitems.typed h0.2.2.1⟩
  | cut _ htype _ _ hitems =>
    rw [List.mem_append, List.mem_cons, not_or, not_or] at h0
    exact ⟨typed_of_container htype _, hitems.typed h0.2.2⟩

theorem Node.typed [LwReal R] {s : List UInt8} {tree : Tree R} (h : Document s tree) (h0 : 0 ∉ s)
    {t : Nat × Label R × Forest (Label R)} (hnode : Node tree t) : t.2.1.Typed ∧ t.2.2.All Label.Typed := by
  induction hnode with
  | root => exact h.typed h0
  | child _ hc ih => exact ih.2.of_mem_trees hc

section

variable (l : Label R)

def Label.valInt : BitVec 64 :=
  match l.u with
  | .numInt b => b
  | _ => 0

def Label.valReal [LwReal R] : R :=
  match l.u with
  | .numReal x => x
  | _ => LwReal.ofInt 0

def Label.valString : Option (List UInt8) :=
  match l.u with
  | .str value _ => some value
  | _ => none

end

/-- What the getters give of a node's token: what the label of the node holds, where its type is that of the getter, and zero or `NULL` otherwise. A string compares equal to every text that it begins. -/
structure Content [LwReal R] (t : Token R) (l : Label R) (child : Option Ref) : Prop where
  type : t.type = l.type
  int : lwjsonGetValInt (some t) = some l.valInt
  real : lwjsonGetValReal (some t) = some l.valReal
  string : (lwjsonGetValString (some t)).map (Option.map fun s => s.1.take s.2) = some l.valString
  length : lwjsonGetValStringLength (some t) = some (l.valString.elim 0 List.length)
  child : lwjsonGetFirstChild (some t) = some child
  compare : ∀ str junk, 0 ∉ str → lwjsonStringCompare (some t) (str ++ 0 :: junk) = some (decide (∃ v ∈ l.valString, v <+: str))
  compareN : ∀ str junk len, 0 ∉ str → lwjsonStringCompareN (some t) (str ++ 0 :: junk) len =
    some (decide (∃ v ∈ l.valString, len ≤ v.length ∧ v.take len <+: str))

/-- The comparison of a string that goes on in memory with a text. -/
theorem strncmp_prefix {n : Nat} {a b : List UInt8} (ha : n ≤ a.length) (hzero : 0 ∉ a.take n) (h0 : 0 ∉ b) (junk : List UInt8) :
    strncmp? n a (b ++ 0 :: junk) = some (decide (a.take n <+: b)) := by
  induction n generalizing a b with
  | zero => simp [strncmp?, strncmp]
  | succ n ih =>
    obtain ⟨c, a, rfl⟩ := List.exists_cons_of_length_pos (Nat.zero_lt_of_lt ha)
    rw [List.take_succ_cons, List.mem_cons, not_or] at hzero
    have ha' : n ≤ a.length := Nat.le_of_succ_le_succ ha
    cases b with
    | nil =>
      rw [List.nil_append, strncmp?, strncmp, if_neg (Ne.symm hzero.1)]
      simp
    | cons d b =>
      rw [List.mem_cons, not_or] at h0
      have hrest := ih ha' hzero.2 h0.2
      rw [List.cons_append, strncmp?, strncmp, List.take_succ_cons]
      by_cases hcd : c = d
      · rw [if_pos hcd, if_neg (Ne.symm hzero.1), ← strncmp?, hrest, hcd]
        simp
      · rw [if_neg hcd]
        simp [List.cons_prefix_cons, hcd]

section

variable [LwReal R] {t : Token R} {name : Option (List UInt8 × Nat)} {next : Option Ref}

private theorem content_string {value : List UInt8} (h0 : 0 ∉ value)
    (h : t.trim = (⟨name, .string, .str value value.length⟩ : Label R).token next none) :
    Content t ⟨name, .string, .str value value.length⟩ none := by
  have htype : t.type = .string := type_of_trim h
  have htrim : t.u.trim = .str value value.length := congrArg Token.u h
  obtain ⟨v, hu, hv⟩ : ∃ v, t.u = .str v value.length ∧ v.take value.length = value := by
    cases hu : t.u with
    | str v n =>
      rw [hu, U.trim, U.str.injEq] at htrim
      obtain ⟨hv, rfl⟩ := htrim
      exact ⟨v, rfl, hv⟩
    | zero | numReal | numInt | firstChild =>
      rw [hu] at htrim
      cases htrim
  have hle : value.length ≤ v.length := by
    rw [← congrArg List.length hv, List.length_take]
    exact Nat.min_le_right _ _
  have htake {n : Nat} (hn : n ≤ value.length) : v.take n = value.take n := by
    calc v.take n = (v.take value.length).take n := by rw [List.take_take, Nat.min_eq_left hn]
      _ = value.take n := by rw [hv]
  refine ⟨htype, ?_, ?_, ?_, ?_, ?_, ?_, ?_⟩
  · simp [lwjsonGetValInt, htype, Label.valInt]
  · simp [lwjsonGetValReal, htype, Label.valReal]
  · simp [lwjsonGetValString, htype, hu, U.str?, Label.valString, hv]
  · simp [lwjsonGetValStringLength, htype, hu, U.str?, Label.valString]
  · simp [lwjsonGetFirstChild, htype]
  · intro str junk hstr
    have hprefix := strncmp_prefix hle (by rw [hv]; exact h0) hstr junk
    rw [hv] at hprefix
    simp [lwjsonStringCompare, htype, hu, U.str?, Label.valString, hprefix]
  · intro str junk len hstr
    rw [lwjsonStringCompareN, if_pos htype, hu, U.str?, Option.bind_some]
    by_cases hlen : len ≤ value.length
    · have hprefix := strncmp_prefix (hlen.trans hle) (by rw [htake hlen]; exact fun hmem => h0 (List.mem_of_mem_take hmem)) hstr junk
      rw [if_pos hlen, hprefix, htake hlen]
      simp [Label.valString, hlen]
    · rw [if_neg hlen]
      simp [Label.valString, hlen]

private theorem content_int {b : BitVec 64} (h : t.trim = (⟨name, .numInt, .numInt b⟩ : Label R).token next none) :
    Content t ⟨name, .numInt, .numInt b⟩ none := by
  have htype : t.type = .numInt := type_of_trim h
  have htrim : t.u.trim = .numInt b := congrArg Token.u h
  have hu : t.u = .numInt b := by
    cases hu : t.u <;> rw [hu] at htrim <;> cases htrim
    rfl
  refine ⟨htype, ?_, ?_, ?_, ?_, ?_, ?_, ?_⟩
  · simp [lwjsonGetValInt, htype, hu, U.numInt?, Label.valInt]
  · simp [lwjsonGetValReal, htype, Label.valReal]
  · simp [lwjsonGetValString, htype, Label.valString]
  · simp [lwjsonGetValStringLength, htype, Label.valString]
  · simp [lwjsonGetFirstChild, htype]
  · simp [lwjsonStringCompare, htype, Label.valString]
  · simp [lwjsonStringCompareN, htype, Label.valString]

private theorem content_real {x : R} (h : t.trim = (⟨name, .numReal, .numReal x⟩ : Label R).token next none) :
    Content t ⟨name, .numReal, .numReal x⟩ none := by
  have htype : t.type = .numReal := type_of_trim h
  have htrim : t.u.trim = .numReal x := congrArg Token.u h
  have hu : t.u = .numReal x := by
    cases hu : t.u <;> rw [hu] at htrim <;> cases htrim
    rfl
  refine ⟨htype, ?_, ?_, ?_, ?_, ?_, ?_, ?_⟩
  · simp [lwjsonGetValInt, htype, Label.valInt]
  · simp [lwjsonGetValReal, htype, hu, U.numReal?, Label.valReal]
  · simp [lwjsonGetValString, htype, Label.valString]
  · simp [lwjsonGetValStringLength, htype, Label.valString]
  · simp [lwjsonGetFirstChild, htype]
  · simp [lwjsonStringCompare, htype, Label.valString]
  · simp [lwjsonStringCompareN, htype, Label.valString]

/-- The token of a container, or of a value that is its type. -/
theorem content_zero {type : LwjsonType} (h3 : type ≠ .string ∧ type ≠ .numInt ∧ type ≠ .numReal) {child : Option Ref}
    (hchild : ¬ IsContainer type → child = none) (h : t.trim = (⟨name, type, .zero⟩ : Label R).token next child) :
    Content t ⟨name, type, .zero⟩ child := by
  obtain ⟨hstring, hint, hreal⟩ := h3
  have htype : t.type = type := type_of_trim h
  refine ⟨htype, ?_, ?_, ?_, ?_, ?_, ?_, ?_⟩
  · simp [lwjsonGetValInt, htype, hint, Label.valInt]
  · simp [lwjsonGetValReal, htype, hreal, Label.valReal]
  · simp [lwjsonGetValString, htype, hstring, Label.valString]
  · simp [lwjsonGetValStringLength, htype, hstring, Label.valString]
  · rw [lwjsonGetFirstChild, htype]
    by_cases hcontainer : IsContainer type
    · exact (if_pos hcontainer).trans (firstChild_of_trim h rfl)
    · exact (if_neg hcontainer).trans (congrArg some (hchild hcontainer).symm)
  · simp [lwjsonStringCompare, htype, hstring, Label.valString]
  · simp [lwjsonStringCompareN, htype, hstring, Label.valString]

private theorem content_of_trim {l : Label R} {child : Option Ref} (htyped : l.Typed) (hchild : ¬ IsContainer l.type → child = none)
    (h : t.trim = l.token next child) : Content t l child := by
  obtain ⟨name, type, u⟩ := l
  cases u with
  | zero => exact content_zero htyped hchild h
  | str value n =>
    obtain ⟨rfl, h0, rfl⟩ := htyped
    obtain rfl := hchild (show ¬ IsContainer .string by decide)
    exact content_string h0 h
  | numReal x =>
    obtain rfl : type = .numReal := htyped
    obtain rfl := hchild (show ¬ IsContainer .numReal by decide)
    exact content_real h
  | numInt b =>
    obtain rfl : type = .numInt := htyped
    obtain rfl := hchild (show ¬ IsContainer .numInt by decide)
    exact content_int h
  | firstChild => exact htyped.elim

end

theorem Shows.content [LwReal R] {o : LwjsonT R} {text : List UInt8} {tree : Tree R} (h : Shows o tree) (hdoc : Document text tree)
    (h0 : 0 ∉ text) {c : Nat × Label R × Forest (Label R)} (hnode : Node tree c) :
    ∃ t, o.deref (loc c.1) = some t ∧ Content t c.2.1 (Forest.link loc (c.1 + 1) none c.2.2) := by
  have hat := h.at_node hdoc hnode
  obtain ⟨next, hcell⟩ := hat.cell
  obtain ⟨t, ht, htrim⟩ := Option.map_eq_some_iff.1 hcell
  refine ⟨t, ht, content_of_trim (hnode.typed hdoc h0).1 ?_ htrim⟩
  intro hleaf
  have hnil := hat.zero
  rw [if_neg hleaf] at hnil
  rw [hnil]
  rfl

/-! ### Lookups -/

theorem Node.of_found {tree : Tree R} {ss : List Segment} {t : Nat × Label R × Forest (Label R)} (ht : Node tree t) {n : Nat}
    (hn : n ∈ found ss t) : ∃ c, Node tree c ∧ c.1 = n := by
  induction ss generalizing t with
  | nil => exact ⟨t, ht, (List.mem_singleton.1 hn).symm⟩
  | cons seg ss ih =>
    cases seg with
    | name w =>
      rw [found] at hn
      split at hn
      · obtain ⟨c, hc, hn⟩ := List.mem_flatMap.1 hn
        exact ih (ht.child (List.mem_filter.1 hc).1) hn
      · cases hn
    | index i =>
      rw [found] at hn
      split at hn
      · obtain ⟨c, hc, hn⟩ := List.mem_flatMap.1 hn
        exact ih (ht.child (List.mem_of_getElem? (Option.mem_toList.1 hc))) hn
      · cases hn
    | any =>
      rw [found] at hn
      split at hn
      · obtain ⟨c, hc, hn⟩ := List.mem_flatMap.1 hn
        exact ih (ht.child hc) hn
      · cases hn

theorem Node.of_results {tree : Tree R} {path : List UInt8} {t : Nat × Label R × Forest (Label R)} (ht : Node tree t) {n : Nat}
    (hn : n ∈ results path t) : ∃ c, Node tree c ∧ c.1 = n := by
  rw [results] at hn
  split at hn
  · cases hn
  · exact ht.of_found hn

variable [LwReal R] {o : LwjsonT R} {text : List UInt8} {tree : Tree R}

/-- What a lookup gives, with the nodes that the path leads to: the first of them where the mask allows its type. -/
inductive Gives (o : LwjsonT R) (tree : Tree R) (path : List UInt8) (m : Mask) :
    List Nat → Option Ref × List (List UInt8) → Prop
  | notFound : Gives o tree path m [] (none, [path ++ notFoundMsg])
  | invalidType {c : Nat × Label R × Forest (Label R)} {rest : List Nat} (hc : Node tree c) (hm : ¬ m.Allows c.2.1.type) :
    Gives o tree path m (c.1 :: rest) (none, [path ++ invalidTypeMsg])
  | token {c : Nat × Label R × Forest (Label R)} {rest : List Nat} {t : Token R} (hc : Node tree c) (hm : m.Allows c.2.1.type)
    (ht : o.deref (loc c.1) = some t) (hcontent : Content t c.2.1 (Forest.link loc (c.1 + 1) none c.2.2)) :
    Gives o tree path m (c.1 :: rest) (some (loc c.1), [])

theorem pkLwjsonFindtEx_gives (h : Shows o tree) (hdoc : Document text tree) (h0 : 0 ∉ text)
    {t : Nat × Label R × Forest (Label R)} (hnode : Node tree t) {path : List UInt8} (hpath : 0 ∉ path) (junk : List UInt8) (m : Mask) :
    ∃ res, pkLwjsonFindtEx o (some (loc t.1)) (path ++ 0 :: junk) m.bits = some res ∧ Gives o tree path m (results path t) res := by
  have htext : (path ++ 0 :: junk).takeWhile (· ≠ 0) = path := by
    rw [List.takeWhile_append_of_pos, List.takeWhile_cons_of_neg (by simp), List.append_nil]
    intro c hc
    exact decide_eq_true fun hzero => hpath (hzero ▸ hc)
  rw [pkLwjsonFindtEx, lwjsonFindEx_spec h hdoc hnode hpath, htext]
  cases hresults : results path t with
  | nil => exact ⟨_, rfl, .notFound⟩
  | cons n rest =>
    obtain ⟨c, hc, rfl⟩ := hnode.of_results (hresults ▸ List.mem_cons_self)
    obtain ⟨tkn, htkn, hcontent⟩ := h.content hdoc h0 hc
    rw [List.head?_cons, Option.map_some]
    dsimp only
    rw [htkn, Option.map_some, mask_spec, hcontent.type]
    refine ⟨_, rfl, ?_⟩
    by_cases hm : m.Allows c.2.1.type
    · rw [if_pos hm]
      exact .token hc hm htkn hcontent
    · rw [if_neg hm]
      exact .invalidType hc hm

/-- **`pk_lwjson_ret_handle` fails its assertion exactly on the empty text and returns true exactly for a text of the language that has room. Then a lookup gives for every token, path and mask the first token that the path leads to, which the getters read as the text says, or tells what is wrong.** -/
theorem pkLwjson_contract (o : LwjsonT R) (h0 : 0 ∉ text) (junk : List UInt8) :
    ∃ r o', lwjsonParse o (text ++ 0 :: junk) = some (r, o') ∧ (pkLwjsonRetHandle r = none ↔ text = []) ∧
      ((pkLwjsonRetHandle r).map Prod.fst = some true ↔ ∃ tree : Tree R, Document text tree ∧ tree.2.size ≤ o.tokens.length) ∧
      ((pkLwjsonRetHandle r).map Prod.fst = some true → ∃ tree, Document text tree ∧ lwjsonGetTokensUsed o' = tree.2.size + 1 ∧
        ∀ path junk' m, 0 ∉ path →
          (∃ res, pkLwjsonFindt o' (path ++ 0 :: junk') m.bits = some res ∧ Gives o' tree path m (results path (0, tree)) res) ∧
          ∀ t, Node tree t → ∃ res, pkLwjsonFindtEx o' (some (loc t.1)) (path ++ 0 :: junk') m.bits = some res ∧
            Gives o' tree path m (results path t) res) := by
  rw [lwjsonParse_eq o h0 junk]
  by_cases hnil : text = []
  · subst hnil
    refine ⟨.errPar, o, rfl, iff_of_true rfl rfl, iff_of_false nofun ?_, nofun⟩
    rintro ⟨tree, hdoc, -⟩
    exact hdoc.ne_nil rfl
  · have hlen : text.length ≠ 0 := mt List.eq_nil_of_length_eq_zero hnil
    obtain ⟨r, o', heq, hleaves, hcode⟩ := lwjsonParseEx_spec o h0 hlen junk
    rw [List.take_length] at hcode
    cases htext : parseText (R := R) 0 o.tokens.length text with
    | error e =>
      rw [htext] at hcode
      obtain rfl : r = e := hcode
      have hhandle : ∃ msg, pkLwjsonRetHandle r = some (false, msg) := by
        rcases parseText_fails htext with rfl | rfl | rfl <;> exact ⟨_, rfl⟩
      obtain ⟨msg, hhandle⟩ := hhandle
      refine ⟨r, o', heq, ?_⟩
      rw [hhandle]
      refine ⟨iff_of_false nofun hnil, iff_of_false nofun ?_, nofun⟩
      rintro ⟨tree, hdoc, hroom⟩
      obtain ⟨tree', htree', -⟩ := hdoc.parseText_eq hroom
      cases htext.symm.trans htree'
    | ok tree =>
      rw [htext] at hcode
      obtain ⟨rfl, hshows⟩ := hcode
      obtain ⟨hdoc, -⟩ := document_of_parseText htext
      refine ⟨.ok, o', heq, iff_of_false nofun hnil, iff_of_true rfl ⟨_, hdoc, ?_⟩, fun _ => ⟨_, hdoc, ?_, ?_⟩⟩
      · exact hshows.room.trans_eq hleaves.length
      · rw [lwjsonGetTokensUsed, hshows.pos]
      · intro path junk' m hpath
        exact ⟨pkLwjsonFindtEx_gives hshows hdoc h0 .root hpath junk' m,
          fun t hnode => pkLwjsonFindtEx_gives hshows hdoc h0 hnode hpath junk' m⟩

theorem pkLwjson_contract_nested :
    ∃ r o', lwjsonParse (lwjsonInit (List.replicate 3 .zero) : LwjsonT ℚ) (nestedText ++ 0 :: []) = some (r, o') ∧
      (pkLwjsonRetHandle r).map Prod.fst = some true ∧ lwjsonGetTokensUsed o' = 4 ∧
        pkLwjsonFindt o' ([ch 'a', ch '.', ch '#', ch '1'] ++ 0 :: []) (Mask.any 0).bits = some (some (loc 3), []) := by
  obtain ⟨r, o', heq, -, htrue, hfind⟩ :=
    pkLwjson_contract (lwjsonInit (List.replicate 3 .zero) : LwjsonT ℚ) (by decide : 0 ∉ nestedText) []
  have hok := htrue.2 ⟨nestedTree, nested_document, by decide⟩
  obtain ⟨tree, hdoc, hused, hgives⟩ := hfind hok
  obtain rfl := hdoc.unique nested_document
  refine ⟨r, o', heq, hok, hused, ?_⟩
  obtain ⟨⟨res, hres, hgives⟩, -⟩ := hgives [ch 'a', ch '.', ch '#', ch '1'] [] (.any 0) (by decide)
  have hfirst : results [ch 'a', ch '.', ch '#', ch '1'] (0, nestedTree) = [3] := by decide +kernel
  rw [hres]
  generalize results [ch 'a', ch '.', ch '#', ch '1'] (0, nestedTree) = ns at hgives hfirst
  cases hgives with
  | notFound => cases hfirst
  | invalidType _ hm => exact (hm trivial).elim
  | token =>
    obtain ⟨hc, -⟩ := List.cons.inj hfirst
    rw [hc]

end Vedruino.Lwjson
