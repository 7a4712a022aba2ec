import Vedruino.Lwjson.Sound

/-!
# The length of the text

The parser may read characters beyond the length that it was given, of a number, of a name or of an escape. They change nothing: what it makes of the text is what it makes of the text up to that length.
-/

namespace Vedruino.Lwjson

variable {R : Type} {cap : Nat} {x y s t : List UInt8}

/-! ### Blanks, strings and names -/

theorem blanks_cut (x y : List UInt8) : blanks y.length (x ++ y) = blanks 0 x ++ y := by
  induction x with
  | nil =>
    cases y with
    | nil => rfl
    | cons c y =>
      rw [List.nil_append, blanks, List.length_cons]
      exact if_neg fun h => Nat.lt_irrefl _ h.1
  | cons c x ih =>
    rw [List.cons_append, blanks, blanks, ih]
    by_cases hc : isBlank c = true
    · rw [if_pos ⟨by rw [List.length_append]; omega, hc⟩, if_pos ⟨Nat.succ_pos _, hc⟩]
    · rw [if_neg fun h => hc h.2, if_neg fun h => hc h.2, List.cons_append]

theorem skip_cut (x y : List UInt8) : skip y.length (x ++ y) = (skip 0 x).map (· ++ y) := by
  rw [skip, skip, blanks_cut, List.length_append]
  by_cases hlive : 0 < (blanks 0 x).length
  · rw [if_pos hlive, if_pos (by omega)]
    rfl
  · rw [if_neg hlive, if_neg (by omega)]
    rfl

/-- A string that goes on to the length is not taken. -/
theorem string_beyond {out : Nat} (h : s.length ≤ out) (n : Nat) : string out s n = none := by
  cases s with
  | nil => rfl
  | cons c s =>
    rw [string.eq_def]
    exact if_pos h

theorem string_cut (x y : List UInt8) (n : Nat) :
    string y.length (x ++ y) n = (string 0 x n).map fun r => (r.1 ++ y, r.2) := by
  fun_induction string 0 x n with
  | case1 n => exact string_beyond (Nat.le_refl _) n
  | case2 c s n hbeyond => exact (Nat.not_succ_le_zero _ hbeyond).elim
  | case3 n =>
    rw [List.cons_append, string.eq_def, List.nil_append]
    dsimp only
    rw [if_neg (by omega), if_pos rfl]
    rcases y with _ | ⟨e, y⟩
    · rfl
    dsimp only
    split
    · exact string_beyond (Nat.le_succ _) _
    split
    · split
      · split
        · exact string_beyond (by simp only [List.length_cons]; omega) _
        · rfl
      · rfl
    · rfl
  | case4 n e s he _ ih =>
    rw [List.cons_append, List.cons_append, string.eq_def]
    dsimp only
    rw [if_neg (by simp only [List.length_cons, List.length_append]; omega), if_pos rfl, if_pos he, ih]
  | case5 n a b c d s hhex hu _ ih =>
    simp only [List.cons_append]
    rw [string.eq_def]
    dsimp only
    rw [if_neg (by simp only [List.length_cons, List.length_append]; omega), if_pos rfl, if_neg hu, if_pos rfl, if_pos hhex, ih]
  | case6 n a b c d s hhex hu _ =>
    simp only [List.cons_append]
    rw [string.eq_def]
    dsimp only
    rw [if_neg (by simp only [List.length_cons, List.length_append]; omega), if_pos rfl, if_neg hu, if_pos rfl, if_neg hhex]
    rfl
  | case7 n s hshort hu _ =>
    have hlt : s.length < 4 := by
      rcases s with _ | ⟨a, _ | ⟨b, _ | ⟨c, _ | ⟨d, s⟩⟩⟩⟩
      · decide
      · simp only [List.length_cons, List.length_nil]
        decide
      · simp only [List.length_cons, List.length_nil]
        decide
      · simp only [List.length_cons, List.length_nil]
        decide
      · exact (hshort _ _ _ _ _ rfl).elim
    simp only [List.cons_append]
    rw [string.eq_def]
    dsimp only
    rw [if_neg (by simp only [List.length_cons, List.length_append]; omega), if_pos rfl, if_neg hu, if_pos rfl]
    split
    next a b c d t heq =>
      have hlength := congrArg List.length heq
      simp only [List.length_append, List.length_cons] at hlength
      rw [string_beyond (by omega)]
      split <;> rfl
    · rfl
  | case8 n e s he hu _ =>
    simp only [List.cons_append]
    rw [string.eq_def]
    dsimp only
    rw [if_neg (by simp only [List.length_cons, List.length_append]; omega), if_pos rfl, if_neg he, if_neg hu]
    rfl
  | case9 s n _ hback =>
    rw [List.cons_append, string.eq_def]
    dsimp only
    rw [if_neg (by simp only [List.length_append]; omega), if_neg hback, if_pos rfl]
    rfl
  | case10 c s n _ hback hquote ih =>
    rw [List.cons_append, string.eq_def]
    dsimp only
    rw [if_neg (by simp only [List.length_append]; omega), if_neg hback, if_neg hquote, ih]

theorem quoted_cut (x y : List UInt8) :
    quoted y.length (x ++ y) = (quoted 0 x).map fun r => (r.1 ++ y, r.2.1 ++ y, r.2.2) := by
  rw [quoted, quoted, skip_cut]
  cases hskip : skip 0 x with
  | none => rfl
  | some t =>
    obtain ⟨-, -, c, t, rfl⟩ := skip_spec hskip
    rw [Option.map_some, List.cons_append]
    dsimp only
    by_cases hc : c = ch '"'
    · rw [if_pos hc, if_pos hc, string_cut]
      cases string 0 t 0 <;> rfl
    · rw [if_neg hc, if_neg hc]
      rfl

theorem propertyName_cut (x y : List UInt8) :
    propertyName y.length (x ++ y) = (propertyName 0 x).map fun r => (r.1 ++ y, r.2.1 ++ y, r.2.2) := by
  rw [propertyName, propertyName, quoted_cut]
  cases quoted 0 x with
  | none => rfl
  | some r =>
    obtain ⟨s, name, n⟩ := r
    rw [Option.map_some, Option.bind_some, Option.bind_some]
    dsimp only
    rw [skip_cut]
    cases hskip : skip 0 s with
    | none => rfl
    | some t =>
      obtain ⟨-, -, c, t, rfl⟩ := skip_spec hskip
      rw [Option.map_some, List.cons_append]
      dsimp only
      by_cases hc : c = ch ':'
      · rw [if_pos hc, if_pos hc, skip_cut]
        cases skip 0 t <;> rfl
      · rw [if_neg hc, if_neg hc]
        rfl

theorem checkOpened_cut (x y : List UInt8) (type : LwjsonType) :
    checkOpened y.length (x ++ y) type = (checkOpened 0 x type).map (· ++ y) := by
  rw [checkOpened, checkOpened, skip_cut]
  cases hskip : skip 0 x with
  | none => rfl
  | some t =>
    obtain ⟨-, -, c, t, rfl⟩ := skip_spec hskip
    rw [Option.map_some, List.cons_append]
    dsimp only
    split <;> rfl

theorem childName_cut {c : UInt8} (type : LwjsonType) (x y : List UInt8) :
    childName y.length type (c :: x ++ y) =
      (childName 0 type (c :: x)).map fun r => (r.1 ++ y, r.2.map fun n => (n.1 ++ y, n.2)) := by
  rw [childName, childName, propertyName_cut, List.cons_append, List.head?_cons, List.head?_cons]
  split
  · rfl
  split
  · cases propertyName 0 (c :: x) <;> rfl
  · rfl

/-! ### The tree -/

def U.extend (y : List UInt8) : U R → U R
  | .str value n => .str (value ++ y) n
  | u => u

/-- The label where the text goes on with `y`. -/
def Label.extend (y : List UInt8) (l : Label R) : Label R := ⟨l.name.map fun n => (n.1 ++ y, n.2), l.type, l.u.extend y⟩

def extendOpen (y : List UInt8) (z : Open R) : Open R := z.map fun frame => (frame.1.extend y, frame.2.map (Label.extend y))

def extendTree (y : List UInt8) (tree : Tree R) : Tree R := (tree.1.extend y, tree.2.map (Label.extend y))

def Step.extend (y : List UInt8) : Step R → Step R
  | .stop res => .stop (res.map (extendTree y))
  | .again z s => .again (extendOpen y z) (s ++ y)

theorem attach_extend (y : List UInt8) (z : Open R) (l : Label R) (kids : Forest (Label R)) :
    attach (extendOpen y z) (l.extend y) (kids.map (Label.extend y)) = extendOpen y (attach z l kids) := by
  cases z with
  | nil => rfl
  | cons frame outer =>
    rw [attach, extendOpen, extendOpen, List.map_cons, attach, List.map_cons, Forest.map_append]
    rfl

private theorem used_extend (y : List UInt8) (z : Open R) : Forest.used (extendOpen y z) = Forest.used z := by
  induction z with
  | nil => rfl
  | cons frame outer ih =>
    obtain ⟨l, done⟩ := frame
    show Forest.used (extendOpen y outer) + 1 + (done.map (Label.extend y)).size = _
    rw [ih, Forest.size_map]
    rfl

variable [LwReal R]

/-- A scalar that begins with no quote is not measured by the length. -/
theorem scalar_out {c : UInt8} (hc : c ≠ ch '"') (out : Nat) (s : List UInt8) : scalar (R := R) out (c :: s) = scalar 0 (c :: s) := by
  rw [scalar, scalar, if_neg hc, if_neg hc]

/-- What follows a child that is no container. -/
def afterLeaf (out : Nat) (z : Open R) (name : Option (List UInt8 × Nat)) (r : List UInt8 × LwjsonType × U R) :
    Option (Open R × List UInt8) :=
  match skip out r.1 with
  | some (c :: s) =>
    if c = ch ',' then some (attach z ⟨name, r.2.1, r.2.2⟩ .nil, s)
    else if c = ch ']' ∨ c = ch '\x7d' then some (attach z ⟨name, r.2.1, r.2.2⟩ .nil, c :: s)
    else none
  | _ => none

omit [LwReal R] in
theorem afterLeaf_cut (z : Open R) (name : Option (List UInt8 × Nat)) (type : LwjsonType) (u : U R) :
    afterLeaf y.length (extendOpen y z) (name.map fun n => (n.1 ++ y, n.2)) (t ++ y, type, u.extend y) =
      (afterLeaf 0 z name (t, type, u)).map fun r => (extendOpen y r.1, r.2 ++ y) := by
  have hattach := attach_extend y z ⟨name, type, u⟩ .nil
  rw [afterLeaf, afterLeaf]
  dsimp only
  rw [skip_cut]
  cases hskip : skip 0 t with
  | none => rfl
  | some v =>
    obtain ⟨-, -, c, v, rfl⟩ := skip_spec hskip
    rw [Option.map_some, List.cons_append]
    dsimp only
    split
    · rw [Option.map_some, ← hattach]
      rfl
    split
    · rw [Option.map_some, ← hattach]
      rfl
    · rfl

omit [LwReal R] in
/-- What follows such a child ends it. -/
theorem stops_of_afterLeaf {z z' : Open R} {name : Option (List UInt8 × Nat)} {type : LwjsonType} {u : U R}
    (h : afterLeaf 0 z name (t, type, u) = some (z', s)) : Stops t := by
  rw [afterLeaf] at h
  dsimp only at h
  cases hskip : skip 0 t with
  | none =>
    rw [hskip] at h
    cases h
  | some v =>
    obtain ⟨b, hb, rfl, c, v, rfl, -⟩ := append_of_skip hskip
    rw [hskip] at h
    dsimp only at h
    split at h
    next hcomma => exact stops_of_blank hb (.inl hcomma) v
    split at h
    next hclose => exact stops_of_blank hb (.inr hclose) v
    · cases h

omit [LwReal R] in
theorem afterLeaf_beyond {out : Nat} (z : Open R) (name : Option (List UInt8 × Nat)) (type : LwjsonType) (u : U R)
    (h : t.length ≤ out) : afterLeaf out z name (t, type, u) = none := by
  have hskip : skip out t = none := by
    rw [skip, if_neg]
    have hle := (blanks_suffix out t).length_le
    omega
  rw [afterLeaf, hskip]

theorem Scalar.extend {cs : List UInt8} {type : LwjsonType} {u : U R} (h : Scalar cs type u.trim) (hquote : cs.head? ≠ some (ch '"')) :
    u.extend y = u ∧ u.trim = u := by
  cases u with
  | str value n =>
    rw [U.trim] at h
    generalize hu : (U.str (value.take n) n : U R) = u at h
    cases h with
    | string => exact (hquote rfl).elim
    | true_ => cases hu
    | false_ => cases hu
    | null => cases hu
    | @number n hn =>
      rw [NumText.value] at hu
      split at hu <;> cases hu
  | zero => exact ⟨rfl, rfl⟩
  | numReal => exact ⟨rfl, rfl⟩
  | numInt => exact ⟨rfl, rfl⟩
  | firstChild => exact ⟨rfl, rfl⟩

/-- With another text after it, what is read of the text stays. -/
theorem scalar_again {cs : List UInt8} {type : LwjsonType} {u : U R} (h : Scalar cs type u.trim) (hquote : cs.head? ≠ some (ch '"'))
    (ht : Stops t) : scalar 0 (cs ++ t) = some (t, type, u) := by
  obtain ⟨u', hscalar, hu'⟩ := scalar_append h ht
  have htrim : u'.trim = u' := ((hu' ▸ h : Scalar cs type u'.trim).extend (y := []) hquote).2
  rw [hscalar, ← htrim, hu', (h.extend (y := []) hquote).2]

/-- A child that begins with no quote may be read beyond the length, but is then not taken. -/
theorem scalar_cut {c : UInt8} (hc : isBlank c = false) (hquote : c ≠ ch '"') (z : Open R) (name : Option (List UInt8 × Nat))
    (x y : List UInt8) :
    (scalar 0 (c :: x ++ y)).bind (afterLeaf y.length (extendOpen y z) (name.map fun n => (n.1 ++ y, n.2))) =
      ((scalar 0 (c :: x)).bind (afterLeaf 0 z name)).map fun r => (extendOpen y r.1, r.2 ++ y) := by
  have hhead {cs t v : List UInt8} (hcs : cs ≠ []) (hsplit : c :: v = cs ++ t) : cs.head? ≠ some (ch '"') := by
    obtain ⟨d, w, rfl⟩ := List.exists_cons_of_ne_nil hcs
    cases hsplit
    rintro ⟨rfl⟩
    exact hquote rfl
  have hne {cs : List UInt8} {type : LwjsonType} {u : U R} (h : Scalar cs type u) : cs ≠ [] := by
    obtain ⟨d, w, rfl, -⟩ := h.begins
    exact List.cons_ne_nil _ _
  cases hshort : (scalar 0 (c :: x)).bind (afterLeaf 0 z name) with
  | some r =>
    obtain ⟨z', s⟩ := r
    rw [Option.bind_eq_some_iff] at hshort
    obtain ⟨⟨t, type, u⟩, hscalar, hafter⟩ := hshort
    obtain ⟨cs, hcs, hsplit⟩ := scalar_of_scalar ⟨c, x, rfl, hc⟩ hscalar
    have hcsquote := hhead (hne hcs) hsplit
    have hstops : Stops (t ++ y) := by
      have hstops := stops_of_afterLeaf hafter
      rcases t with _ | ⟨d, t⟩
      · cases hafter
      · exact hstops
    rw [hsplit, List.append_assoc, scalar_again hcs hcsquote hstops, Option.bind_some]
    have hcut := afterLeaf_cut (y := y) (t := t) z name type u
    rw [(hcs.extend hcsquote).1, hafter] at hcut
    exact hcut
  | none =>
    cases hlong : (scalar 0 (c :: x ++ y)).bind (afterLeaf y.length (extendOpen y z) (name.map fun n => (n.1 ++ y, n.2))) with
    | none => rfl
    | some r =>
      rw [Option.bind_eq_some_iff] at hlong
      obtain ⟨⟨t, type, u⟩, hscalar, hafter⟩ := hlong
      obtain ⟨cs, hcs, hsplit⟩ := scalar_of_scalar ⟨c, x ++ y, rfl, hc⟩ hscalar
      have hcsquote := hhead (hne hcs) hsplit
      rcases List.append_eq_append_iff.1 (List.cons_append ▸ hsplit) with ⟨v, -, rfl⟩ | ⟨v, hx, rfl⟩
      · rw [afterLeaf_beyond _ _ _ _ (by rw [List.length_append]; omega)] at hafter
        cases hafter
      · have hcut := afterLeaf_cut (y := y) (t := v) z name type u
        rw [(hcs.extend hcsquote).1, hafter] at hcut
        obtain ⟨r', hr', -⟩ := Option.map_eq_some_iff.1 hcut.symm
        rw [hx, scalar_again hcs hcsquote (stops_of_afterLeaf hr'), Option.bind_some, hr'] at hshort
        cases hshort

theorem leaf_cut {c : UInt8} (hc : isBlank c = false) (z : Open R) (name : Option (List UInt8 × Nat)) (x y : List UInt8) :
    leaf y.length (extendOpen y z) (name.map fun n => (n.1 ++ y, n.2)) (c :: x ++ y) =
      (leaf 0 z name (c :: x)).map fun r => (extendOpen y r.1, r.2 ++ y) := by
  show (scalar y.length (c :: x ++ y)).bind (afterLeaf y.length _ _) = ((scalar 0 (c :: x)).bind (afterLeaf 0 z name)).map _
  by_cases hquote : c = ch '"'
  · rw [List.cons_append, scalar, scalar, if_pos hquote, if_pos hquote, ← List.cons_append, quoted_cut]
    cases quoted 0 (c :: x) with
    | none => rfl
    | some r =>
      obtain ⟨t, value, n⟩ := r
      exact afterLeaf_cut z name .string (.str value n)
  · rw [List.cons_append, scalar_out hquote, ← List.cons_append]
    exact scalar_cut hc hquote z name x y

theorem element_cut {type : LwjsonType} (htype : IsContainer type) {c : UInt8} (hc : isBlank c = false) (z : Open R)
    (x y : List UInt8) :
    element y.length (extendOpen y z) type (c :: x ++ y) =
      (element 0 z type (c :: x)).map fun r => (extendOpen y r.1, r.2 ++ y) := by
  rw [element, element, childName_cut]
  cases hname : childName 0 type (c :: x) with
  | none => rfl
  | some r =>
    obtain ⟨s, n⟩ := r
    obtain ⟨-, -, -, d, s, rfl, hd⟩ := append_of_childName htype ⟨c, x, rfl, hc⟩ hname
    rw [Option.map_some, Option.bind_some, Option.bind_some, List.cons_append]
    dsimp only
    by_cases hopen : d = ch '\x7b' ∨ d = ch '['
    · rw [if_pos hopen, if_pos hopen, checkOpened_cut]
      cases checkOpened 0 s (if d = ch '\x7b' then LwjsonType.object else .array) <;> rfl
    · rw [if_neg hopen, if_neg hopen]
      exact leaf_cut hd z n s y

theorem round_cut {z : Open R} (htypes : ∀ frame ∈ z, IsContainer frame.1.type) (x y : List UInt8) :
    round y.length cap (extendOpen y z) (x ++ y) = (round 0 cap z x).extend y := by
  cases z with
  | nil => rfl
  | cons frame outer =>
    obtain ⟨l, done⟩ := frame
    have hcons : extendOpen y ((l, done) :: outer) = (l.extend y, done.map (Label.extend y)) :: extendOpen y outer := rfl
    have hused := used_extend y ((l, done) :: outer)
    have hattach := attach_extend y outer l done
    rw [hcons] at hused ⊢
    rw [round, round, skip_cut]
    cases hskip : skip 0 x with
    | none => rfl
    | some t =>
      obtain ⟨b, hb, rfl, c, t, rfl, hc⟩ := append_of_skip hskip
      rw [Option.map_some, List.cons_append]
      dsimp only
      by_cases hcomma : c = ch ','
      · rw [if_pos hcomma, if_pos hcomma]
        rfl
      rw [if_neg hcomma, if_neg hcomma]
      by_cases hclose : c = closer l.type
      · rw [if_pos hclose, if_pos (show c = closer (l.extend y).type from hclose)]
        cases outer with
        | nil =>
          show Step.stop (if (blanks y.length (t ++ y)).length ≤ y.length then _ else _) = _
          rw [blanks_cut, List.length_append]
          by_cases hend : (blanks 0 t).length ≤ 0
          · rw [if_pos hend, if_pos (by omega)]
            rfl
          · rw [if_neg hend, if_neg (by omega)]
            rfl
        | cons frame outer => exact congrArg (Step.again · (t ++ y)) hattach
      · rw [if_neg hclose, if_neg (show ¬ c = closer (l.extend y).type from hclose)]
        by_cases hroom : Forest.used ((l, done) :: outer) ≤ cap
        · have helement := element_cut (htypes _ List.mem_cons_self) hc ((l, done) :: outer) t y
          rw [hcons, List.cons_append] at helement
          rw [if_pos hroom, if_pos (hused.trans_le hroom), show (l.extend y).type = l.type from rfl, helement]
          cases element 0 ((l, done) :: outer) l.type (c :: t) <;> rfl
        · rw [if_neg hroom, if_neg fun h => hroom (hused.symm.trans_le h)]
          rfl

/-- The types of the open nodes after a round. -/
theorem types_round {out : Nat} {z z' : Open R} (htypes : ∀ frame ∈ z, IsContainer frame.1.type)
    (h : round out cap z s = .again z' t) : ∀ frame ∈ z', IsContainer frame.1.type := by
  have hattach {outer : Open R} (houter : ∀ frame ∈ outer, IsContainer frame.1.type) (l : Label R) (kids : Forest (Label R)) :
      ∀ frame ∈ attach outer l kids, IsContainer frame.1.type := by
    cases outer with
    | nil => exact houter
    | cons frame outer => exact List.forall_mem_cons.2 (List.forall_mem_cons.1 houter)
  rcases round_again h with rfl | ⟨l, done, frame, outer, rfl, rfl⟩ | ⟨-, ⟨l, hl, -, rfl⟩ | ⟨l, -, rfl⟩⟩
  · exact htypes
  · exact hattach (List.forall_mem_cons.1 htypes).2 l done
  · exact List.forall_mem_cons.2 ⟨hl, htypes⟩
  · exact hattach htypes l .nil

theorem rounds_cut {fuel : Nat} {z : Open R} (htypes : ∀ frame ∈ z, IsContainer frame.1.type) (x y : List UInt8) :
    rounds y.length cap fuel (extendOpen y z) (x ++ y) = (rounds 0 cap fuel z x).map (extendTree y) := by
  induction fuel generalizing z x with
  | zero => rfl
  | succ fuel ih =>
    rw [rounds, rounds, round_cut htypes, List.length_append]
    by_cases hlive : 0 < x.length
    · rw [if_pos hlive, if_pos (by omega)]
      cases hround : round 0 cap z x with
      | stop res => rfl
      | again z' t => exact ih (types_round htypes hround) t
    · rw [if_neg hlive, if_neg (by omega)]
      rcases z with _ | ⟨frame, _ | ⟨frame', outer⟩⟩
      · rfl
      · rfl
      · rfl

/-- What the parser makes of a text is what it makes of the text up to the length, where its names and strings go on. -/
theorem parseText_cut (x y : List UInt8) :
    parseText (R := R) y.length cap (x ++ y) = (parseText 0 cap x).map (extendTree y) := by
  rw [parseText, parseText, skip_cut]
  cases hskip : skip 0 x with
  | none => rfl
  | some t =>
    obtain ⟨b, -, rfl, c, t, rfl, -⟩ := append_of_skip hskip
    rw [Option.map_some, List.cons_append]
    dsimp only
    by_cases hopen : c = ch '\x7b' ∨ c = ch '['
    · have htype : IsContainer (if c = ch '\x7b' then LwjsonType.object else .array) := by split <;> decide
      rw [if_pos hopen, if_pos hopen, checkOpened_cut]
      cases hcheck : checkOpened 0 t (if c = ch '\x7b' then LwjsonType.object else .array) with
      | none => rfl
      | some v =>
        have hle := (checkOpened_suffix hcheck).length_le
        generalize (if c = ch '\x7b' then LwjsonType.object else .array) = type at htype
        have htypes : ∀ frame ∈ ([(⟨none, type, .zero⟩, .nil)] : Open R), IsContainer frame.1.type := List.forall_mem_singleton.2 htype
        have hfuel : rounds (R := R) 0 cap ((b ++ c :: t).length + 1) [(⟨none, type, .zero⟩, .nil)] v =
            rounds 0 cap ((b ++ c :: t ++ y).length + 1) [(⟨none, type, .zero⟩, .nil)] v := by
          simp only [List.length_append, List.length_cons]
          exact rounds_fuel (by omega) (by omega)
        rw [Option.map_some]
        dsimp only
        rw [hfuel]
        exact rounds_cut htypes v y
    · rw [if_neg hopen, if_neg hopen]
      rfl

end Vedruino.Lwjson
