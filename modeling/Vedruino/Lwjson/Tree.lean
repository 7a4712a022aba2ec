import Vedruino.Lwjson.Scan

/-!
# The tree of a text

The parser again, with the tree that is being built in place of the tokens: the open nodes, innermost first, each with the children it has so far. The tokens of the parser hold that tree after every round of its loop.
-/

namespace Vedruino.Lwjson

variable {R : Type}

/-- What a token says beside its links. A name and a string are where they begin in the text and how long they are. -/
structure Label (R : Type) where
  name : Option (List UInt8 × Nat)
  type : LwjsonType
  u : U R
  deriving DecidableEq, Repr

abbrev Open (R : Type) := List (Label R × Forest (Label R))

/-- The label of the first token, and the forest of its children. -/
abbrev Tree (R : Type) := Label R × Forest (Label R)

def closer (type : LwjsonType) : UInt8 := if type = .object then ch '\x7d' else ch ']'

/-- The innermost node gets another child. -/
def attach (z : Open R) (l : Label R) (kids : Forest (Label R)) : Open R :=
  match z with
  | [] => []
  | (a, done) :: outer => (a, done.append (.cons l kids .nil)) :: outer

section

variable (out : Nat)

/-- The name of a child of a node of that type, after what follows the name. -/
def childName (type : LwjsonType) (s : List UInt8) : Option (List UInt8 × Option (List UInt8 × Nat)) :=
  if type = .array then some (s, none)
  else if s.head? = some (ch '"') then (propertyName out s).map fun (s, name, n) => (s, some (name, n))
  else none

variable [LwReal R]

/-- A child that is no container, and the comma after it. -/
def leaf (z : Open R) (name : Option (List UInt8 × Nat)) (s : List UInt8) : Option (Open R × List UInt8) :=
  (scalar out s).bind fun (s, type, u) =>
    match skip out s with
    | some (c :: s) =>
      if c = ch ',' then some (attach z ⟨name, type, u⟩ .nil, s)
      else if c = ch ']' ∨ c = ch '\x7d' then some (attach z ⟨name, type, u⟩ .nil, c :: s)
      else none
    | _ => none

/-- A child of a node of that type. -/
def element (z : Open R) (type : LwjsonType) (s : List UInt8) : Option (Open R × List UInt8) :=
  (childName out type s).bind fun (s, name) =>
    match s with
    | [] => none
    | c :: s =>
      if c = ch '\x7b' ∨ c = ch '[' then
        let type := if c = ch '\x7b' then LwjsonType.object else .array
        (checkOpened out s type).map fun s => ((⟨name, type, .zero⟩, .nil) :: z, s)
      else leaf out z name (c :: s)

/-- Where a round goes on the tree. -/
inductive Step (R : Type)
  | stop (res : Except Lwjsonr (Tree R))
  | again (z : Open R) (s : List UInt8)

/-- A round, with `cap` tokens in the array. -/
def round (cap : Nat) (z : Open R) (s : List UInt8) : Step R :=
  match z with
  | [] => .stop (.error .errJson)
  | (l, done) :: outer =>
    match skip out s with
    | none | some [] => .stop (.error .errJson)
    | some (c :: s) =>
      if c = ch ',' then .again z s
      else if c = closer l.type then
        match outer with
        | [] => .stop (if (blanks out s).length ≤ out then .ok (l, done) else .error .err)
        | _ :: _ => .again (attach outer l done) s
      else if Forest.used z ≤ cap then
        match element out z l.type (c :: s) with
        | none => .stop (.error .errJson)
        | some (z, s) => .again z s
      else .stop (.error .errMem)

/-- The text may end where the first token alone is open. -/
def atEnd : Open R → Except Lwjsonr (Tree R)
  | [(l, done)] => .ok ({ l with name := none }, done)
  | _ => .error .errJson

def rounds (cap : Nat) : Nat → Open R → List UInt8 → Except Lwjsonr (Tree R)
  | 0, _, _ => .error .errJson
  | fuel + 1, z, s =>
    if out < s.length then
      match round out cap z s with
      | .stop res => res
      | .again z s => rounds cap fuel z s
    else atEnd z

/-- The tree of a text, or the code of the parser. -/
def parseText (cap : Nat) (text : List UInt8) : Except Lwjsonr (Tree R) :=
  match skip out text with
  | some (c :: s) =>
    if c = ch '\x7b' ∨ c = ch '[' then
      let type := if c = ch '\x7b' then LwjsonType.object else .array
      match checkOpened out s type with
      | none => .error .errJson
      | some s => rounds out cap (text.length + 1) [(⟨none, type, .zero⟩, .nil)] s
    else .error .errJson
  | _ => .error .errJson

end

/-! ### The text gets shorter -/

variable {out cap : Nat} {s t : List UInt8}

theorem childName_spec {type : LwjsonType} {name : Option (List UInt8 × Nat)} (h : childName out type s = some (t, name)) :
    t <:+ s ∧ t.length ≤ s.length ∧ (out < s.length → out < t.length) := by
  rw [childName] at h
  split at h
  · cases h
    exact ⟨List.suffix_refl _, Nat.le_refl _, id⟩
  split at h
  · rw [Option.map_eq_some_iff] at h
    obtain ⟨⟨u, name, n⟩, hname, heq⟩ := h
    cases heq
    obtain ⟨ht, -, hlt, hlive⟩ := propertyName_suffix hname
    exact ⟨ht, Nat.le_of_lt hlt, fun _ => hlive⟩
  · cases h

variable [LwReal R]

theorem leaf_spec {z z' : Open R} {name : Option (List UInt8 × Nat)} (h : leaf out z name s = some (z', t)) :
    t <:+ s ∧ t.length < s.length ∧ ∃ type u, ¬ IsContainer type ∧ z' = attach z ⟨name, type, u⟩ .nil := by
  rw [leaf, Option.bind_eq_some_iff] at h
  obtain ⟨⟨v, type, u⟩, hscalar, h⟩ := h
  obtain ⟨hv, hlt, htype⟩ := scalar_spec hscalar
  dsimp only at h
  cases hskip : skip out v with
  | none =>
    rw [hskip] at h
    cases h
  | some w =>
    obtain ⟨hw, -, c, w, rfl⟩ := skip_spec hskip
    have hle := hw.length_le
    rw [hskip] at h
    dsimp only at h
    split at h
    · cases h
      rw [List.length_cons] at hle
      exact ⟨(suffix_of_cons hw).trans hv, by omega, _, _, htype, rfl⟩
    split at h
    · cases h
      exact ⟨hw.trans hv, by omega, _, _, htype, rfl⟩
    · cases h

/-- The open nodes after a round that reads a child. -/
theorem element_spec {z z' : Open R} {type : LwjsonType} (h : element out z type s = some (z', t)) :
    t <:+ s ∧ t.length < s.length ∧
      ((∃ l, IsContainer l.type ∧ l.u = .zero ∧ z' = (l, .nil) :: z) ∨ ∃ l, ¬ IsContainer l.type ∧ z' = attach z l .nil) := by
  rw [element, Option.bind_eq_some_iff] at h
  obtain ⟨⟨v, name⟩, hname, h⟩ := h
  obtain ⟨hv, hle, -⟩ := childName_spec hname
  cases v with
  | nil => cases h
  | cons c v =>
    dsimp only at h
    split at h
    · rw [Option.map_eq_some_iff] at h
      obtain ⟨w, hopened, heq⟩ := h
      cases heq
      have hw := checkOpened_suffix hopened
      have hlt := hw.length_le
      rw [List.length_cons] at hle
      refine ⟨hw.trans (suffix_of_cons hv), by omega, .inl ⟨_, ?_, rfl, rfl⟩⟩
      dsimp only
      split <;> decide
    · obtain ⟨ht, hlt, type', u, htype, rfl⟩ := leaf_spec h
      exact ⟨ht.trans hv, by omega, .inr ⟨_, htype, rfl⟩⟩

/-- What a round that goes on does to the open nodes. -/
theorem round_again {z z' : Open R} (h : round out cap z s = .again z' t) :
    z' = z ∨ (∃ l done frame outer, z = (l, done) :: frame :: outer ∧ z' = attach (frame :: outer) l done) ∨
      Forest.used z ≤ cap ∧ ((∃ l, IsContainer l.type ∧ l.u = .zero ∧ z' = (l, .nil) :: z) ∨
        ∃ l, ¬ IsContainer l.type ∧ z' = attach z l .nil) := by
  cases z with
  | nil => cases h
  | cons frame outer =>
    obtain ⟨l, done⟩ := frame
    rw [round] at h
    split at h
    · cases h
    · cases h
    split at h
    · cases h
      exact .inl rfl
    split at h
    · cases outer with
      | nil => cases h
      | cons frame outer =>
        cases h
        exact .inr (.inl ⟨l, done, frame, outer, rfl, rfl⟩)
    split at h
    next hroom =>
      split at h
      · cases h
      next helement =>
        cases h
        exact .inr (.inr ⟨hroom, (element_spec helement).2.2⟩)
    · cases h

theorem round_spec {z z' : Open R} (h : round out cap z s = .again z' t) : t <:+ s ∧ t.length < s.length := by
  cases z with
  | nil => cases h
  | cons frame outer =>
    obtain ⟨l, done⟩ := frame
    rw [round] at h
    cases hskip : skip out s with
    | none =>
      rw [hskip] at h
      cases h
    | some v =>
      obtain ⟨hv, -, c, v, rfl⟩ := skip_spec hskip
      have hrest := suffix_of_cons hv
      have hle := hv.length_le
      rw [List.length_cons] at hle
      rw [hskip] at h
      dsimp only at h
      split at h
      · cases h
        exact ⟨hrest, by omega⟩
      split at h
      · cases outer with
        | nil => cases h
        | cons =>
          cases h
          exact ⟨hrest, by omega⟩
      split at h
      · cases helement : element out ((l, done) :: outer) l.type (c :: v) with
        | none =>
          rw [helement] at h
          cases h
        | some r =>
          rw [helement] at h
          cases h
          obtain ⟨ht, hlt, -⟩ := element_spec helement
          rw [List.length_cons] at hlt
          exact ⟨ht.trans hv, by omega⟩
      · cases h

/-- There is fuel enough for one round for each character. -/
theorem rounds_fuel {fuel fuel' : Nat} {z : Open R} (h : s.length < fuel) (h' : s.length < fuel') :
    rounds out cap fuel z s = rounds out cap fuel' z s := by
  induction fuel generalizing fuel' z s with
  | zero => exact (Nat.not_lt_zero _ h).elim
  | succ fuel ih =>
    obtain ⟨fuel', rfl⟩ := Nat.exists_eq_succ_of_ne_zero (Nat.ne_of_gt (Nat.zero_lt_of_lt h'))
    rw [rounds, rounds]
    by_cases hlive : out < s.length
    · rw [if_pos hlive, if_pos hlive]
      cases hround : round out cap z s with
      | stop res => rfl
      | again z' t =>
        have hlt := (round_spec hround).2
        exact ih (by omega) (by omega)
    · rw [if_neg hlive, if_neg hlive]

end Vedruino.Lwjson
