import Vedruino.Lwjson.Language

/-!
# Finding a token

`lwjson_find` follows a path through the tokens. It gives the first of the nodes of the tree, in the order of the text, that the segments of the path lead to.
-/

namespace Vedruino.Lwjson

variable {R : Type}

/-! ### The functions of the library -/

/-- What `prv_create_path_segment` gives of a path: the rest of it, the segment with its length, and whether it is the last. -/
structure PathSegment where
  path : List UInt8
  opath : List UInt8
  olen : Nat
  isLast : Bool
  deriving DecidableEq, Repr

/-- The loop over a segment that begins with `#`, with `olen`; there is none where the path is `#` alone. -/
def hashLoop : List UInt8 → Nat → Option (Option (List UInt8 × Nat))
  | [], _ => none
  | c :: s, n =>
    if c = ch '.' then some (some (s, n))
    else if c = 0 then (if n = 1 then some none else some (some (c :: s, n)))
    else hashLoop s (n + 1)

/-- The loop over a segment of literal text. -/
def literalLoop : List UInt8 → Nat → Option (List UInt8 × Nat)
  | [], _ => none
  | c :: s, n => if c ≠ 0 ∧ c ≠ ch '.' then literalLoop s (n + 1) else some (c :: s, n)

/-- `none` stands for a read out of bounds, and `some none` for the result `0`. -/
def prvCreatePathSegment (path : List UInt8) : Option (Option PathSegment) :=
  match path with
  | [] => none
  | c :: _ =>
    if c = 0 then some none
    else if c = ch '#' then
      match hashLoop path 0 with
      | none => none
      | some none => some none
      | some (some (s, n)) => s.head?.map fun d => some ⟨s, path, n, d = 0⟩
    else
      match literalLoop path 0 with
      | some (d :: s, n) => some (some ⟨s, path, n, d = 0⟩)
      | _ => none

/-- The loop over the digits of an index; a `size_t` has 32 bits. -/
def parseIndex : List UInt8 → Nat → Option Nat
  | [], index => some index
  | c :: s, index => if isDigit c then parseIndex s ((index * 10 + (c.toNat - (ch '0').toNat)) % 2 ^ 32) else none

/-- Whether the token has the name that the segment says. -/
def hasName (t : Token R) (segment : List UInt8) (len : Nat) : Option Bool :=
  if t.tokenNameLen = len then
    match t.tokenName with
    | none => none
    | some name =>
      match strncmp len name segment with
      | .ok same => some same
      | _ => none
  else some false

/-- `some none` stands for `NULL`, and `none` for an access out of bounds or for too little fuel. -/
def prvFind (o : LwjsonT R) : Nat → Ref → List UInt8 → Option (Option Ref)
  | 0, _, _ => none
  | fuel + 1, r, path =>
    match o.deref r, prvCreatePathSegment path with
    | some parent, some (some seg) =>
      if seg.opath.head? = some (ch '#') then
        if parent.type ≠ .array then some none
        else
          match parent.firstChild with
          | none => none
          | some first =>
            if 1 < seg.olen then
              match parseIndex ((seg.opath.take seg.olen).drop 1) 0 with
              | none => some none
              | some index =>
                match Forest.nthFrom Token.next o.deref index first with
                | none => none
                | some none => some none
                | some (some tkn) => if seg.isLast then some (some tkn) else prvFind o fuel tkn seg.path
            else Forest.firstFrom Token.next o.deref (fun tkn _ => prvFind o fuel tkn seg.path) (o.tokens.length + 1) first
      else if parent.type ≠ .object then some none
      else
        match parent.firstChild with
        | none => none
        | some first =>
          Forest.firstFrom Token.next o.deref (fun tkn t =>
            match hasName t seg.opath seg.olen with
            | none => none
            | some false => some none
            | some true => if seg.isLast then some (some tkn) else prvFind o fuel tkn seg.path) (o.tokens.length + 1) first
    | some _, some none => some none
    | _, _ => none

/-- `lwjson_find_ex`; `none` for the token is the first one. -/
def lwjsonFindEx (o : LwjsonT R) (token : Option Ref) (path : Option (List UInt8)) : Option (Option Ref) :=
  match path with
  | none => some none
  | some path =>
    if o.parsed = false then some none
    else
      let token := token.getD .firstToken
      match o.deref token with
      | none => none
      | some t => if t.type ≠ .array ∧ t.type ≠ .object then some none else prvFind o (path.length + 1) token path

def lwjsonFind (o : LwjsonT R) (path : Option (List UInt8)) : Option (Option Ref) :=
  match path with
  | none => some none
  | some path => if o.parsed = false then some none else prvFind o (path.length + 1) .firstToken path

/-! ### Paths -/

/-- A segment of a path: a child by its name, a child by its number, or any child of an array. -/
inductive Segment
  | name (n : List UInt8)
  | index (i : Nat)
  | any
  deriving DecidableEq, Repr

/-- The segment, where it is one. -/
def segment (w : List UInt8) : Option Segment :=
  match w with
  | [] => some (.name [])
  | c :: ds =>
    if c = ch '#' then (if ds = [] then some .any else (parseIndex ds 0).map .index)
    else some (.name (c :: ds))

/-- The segments of a path. Nothing follows a point at the end, so that such a path finds nothing, but the point after an index is no such point. -/
def segments (path : List UInt8) : Option (List Segment) :=
  match path with
  | [] => none
  | c :: s =>
    let w := (c :: s).takeWhile (· ≠ ch '.')
    (segment w).bind fun seg =>
      match _h : (c :: s).dropWhile (· ≠ ch '.') with
      | [] => if seg = .any then none else some [seg]
      | _ :: rest =>
        match seg, rest with
        | .index i, [] => some [.index i]
        | seg, rest => (segments rest).map (seg :: ·)
termination_by path.length
decreasing_by
  have hle := (List.dropWhile_suffix (· ≠ ch '.') (l := c :: s)).length_le
  rw [_h] at hle
  exact hle

/-- The nodes that the segments lead to from a node, in the order of the text. -/
def found : List Segment → Nat × Label R × Forest (Label R) → List Nat
  | [], t => [t.1]
  | .name n :: ss, t =>
    if t.2.1.type = .object then
      ((t.2.2.trees (t.1 + 1)).filter fun c => c.2.1.name.map Prod.fst = some n).flatMap (found ss)
    else []
  | .index i :: ss, t => if t.2.1.type = .array then (t.2.2.trees (t.1 + 1))[i]?.toList.flatMap (found ss) else []
  | .any :: ss, t => if t.2.1.type = .array then (t.2.2.trees (t.1 + 1)).flatMap (found ss) else []

/-! ### The cells of the nodes -/

/-- What the parser makes of the nodes: the children of an object have names, and a container has nothing else than children. -/
def Nodes : LwjsonType → Forest (Label R) → Prop
  | _, .nil => True
  | type, .cons l kids rest =>
    (type = .object → l.name.isSome) ∧ l.Exact ∧ (if IsContainer l.type then l.u = .zero else kids = .nil) ∧
      Nodes l.type kids ∧ Nodes type rest

theorem Nodes.of_mem_trees {type : LwjsonType} {f : Forest (Label R)} (h : Nodes type f) {n : Nat}
    {t : Nat × Label R × Forest (Label R)} (ht : t ∈ f.trees n) :
    (type = .object → t.2.1.name.isSome) ∧ t.2.1.Exact ∧ (if IsContainer t.2.1.type then t.2.1.u = .zero else t.2.2 = .nil) ∧
      Nodes t.2.1.type t.2.2 := by
  induction f generalizing n with
  | nil => cases ht
  | cons l kids rest _ ih =>
    obtain ⟨hname, hexact, hu, hkids, hrest⟩ := h
    rcases List.mem_cons.1 ht with rfl | ht
    · exact ⟨hname, hexact, hu, hkids⟩
    · exact ih hrest ht

private theorem size_of_mem_trees {f : Forest (Label R)} {n : Nat} {t : Nat × Label R × Forest (Label R)} (ht : t ∈ f.trees n) :
    t.2.2.size < f.size := by
  induction f generalizing n with
  | nil => cases ht
  | cons l kids rest _ ih =>
    rw [Forest.size]
    rcases List.mem_cons.1 ht with rfl | ht
    · dsimp only
      omega
    · have hlt := ih ht
      omega

theorem Items.nodes [LwReal R] {type : LwjsonType} {closed free : Bool} {s : List UInt8} {f : Forest (Label R)}
    (h : Items type closed free s f) : Nodes type f := by
  induction h with
  | close => trivial
  | cut => trivial
  | comma _ _ ih => exact ih
  | scalar _ hname hu _ ih =>
    refine ⟨?_, ⟨hname.exact, hu.exact⟩, ?_, trivial, ih⟩
    · rintro rfl
      cases hname
      rfl
    · rw [if_neg hu.not_container]
  | container _ hname htype _ _ _ ihinner ih =>
    refine ⟨?_, ⟨hname.exact, fun _ _ hu => nomatch hu⟩, ?_, ihinner, ih⟩
    · rintro rfl
      cases hname
      rfl
    · rw [if_pos htype]

section

variable {t : Token R} {l : Label R} {next child : Option Ref}

theorem next_of_trim (h : t.trim = l.token next child) : t.next = next := congrArg Token.next h

theorem type_of_trim (h : t.trim = l.token next child) : t.type = l.type := congrArg Token.type h

theorem firstChild_of_trim (h : t.trim = l.token next child) (hl : l.u = .zero) : t.firstChild = some child := by
  have htrim : t.u.trim = (l.token next child).u := congrArg Token.u h
  rw [Token.firstChild]
  cases child with
  | some r =>
    cases hu : t.u <;> rw [hu] at htrim <;> cases htrim
    rfl
  | none =>
    rw [Label.token, hl] at htrim
    cases hu : t.u <;> rw [hu] at htrim <;> cases htrim

private theorem strncmp_take {n : Nat} {a b : List UInt8} (ha : n ≤ a.length) (hb : n ≤ b.length) (h0 : 0 ∉ b.take n) :
    strncmp n a b = .ok (decide (a.take n = b.take n)) := by
  induction n generalizing a b with
  | zero => rfl
  | succ n ih =>
    obtain ⟨c, a, rfl⟩ := List.exists_cons_of_length_pos (Nat.zero_lt_of_lt ha)
    obtain ⟨d, b, rfl⟩ := List.exists_cons_of_length_pos (Nat.zero_lt_of_lt hb)
    rw [List.take_succ_cons, List.mem_cons, not_or] at h0
    rw [strncmp, List.take_succ_cons, List.take_succ_cons]
    by_cases hcd : c = d
    · rw [if_pos hcd, if_neg (by rw [hcd]; exact Ne.symm h0.1), ih (Nat.le_of_succ_le_succ ha) (Nat.le_of_succ_le_succ hb) h0.2, hcd]
      simp
    · rw [if_neg hcd]
      simp [hcd]

/-- The comparison of a name is that of its characters. -/
theorem hasName_of_trim (h : t.trim = l.token next child) (hexact : l.Exact) (hname : l.name.isSome) {w : List UInt8} (h0 : 0 ∉ w)
    (rest : List UInt8) : hasName t (w ++ rest) w.length = some (decide (l.name.map Prod.fst = some w)) := by
  obtain ⟨⟨chars, n⟩, hl⟩ := Option.isSome_iff_exists.1 hname
  have hn : n = chars.length := hexact.1 _ hl
  have hlen : t.tokenNameLen = (l.name.map Prod.snd).getD 0 := congrArg Token.tokenNameLen h
  have htake : t.tokenName.map (·.take t.tokenNameLen) = l.name.map Prod.fst := congrArg Token.tokenName h
  rw [hl] at hlen htake ⊢
  obtain ⟨name, hname, hchars⟩ := Option.map_eq_some_iff.1 htake
  replace hlen : t.tokenNameLen = chars.length := hlen.trans hn
  replace hchars : name.take chars.length = chars := hlen ▸ hchars
  have hiff : Option.map Prod.fst (some (chars, n)) = some w ↔ chars = w := by
    rw [Option.map_some, Option.some.injEq]
  rw [hasName, hlen, hname, decide_eq_decide.2 hiff]
  dsimp only
  by_cases hw : chars.length = w.length
  · have hle : w.length ≤ name.length := by
      rw [← hw, ← hchars, List.length_take]
      exact Nat.min_le_right _ _
    rw [if_pos hw, strncmp_take hle (by rw [List.length_append]; omega) (by rw [List.take_left]; exact h0), List.take_left, ← hw,
      hchars]
  · rw [if_neg hw, decide_eq_false fun heq => hw (congrArg List.length heq)]

end

/-! ### The segments of a path -/

variable {s junk : List UInt8}

private theorem literalLoop_append (h0 : 0 ∉ s) (n : Nat) :
    literalLoop (s ++ 0 :: junk) n =
      some (s.dropWhile (· ≠ ch '.') ++ 0 :: junk, n + (s.takeWhile (· ≠ ch '.')).length) := by
  induction s generalizing n with
  | nil => rfl
  | cons c s ih =>
    rw [List.mem_cons, not_or] at h0
    rw [List.cons_append, literalLoop]
    by_cases hc : c = ch '.'
    · rw [if_neg fun h => h.2 hc, List.dropWhile_cons_of_neg (by simp [hc]), List.takeWhile_cons_of_neg (by simp [hc])]
      rfl
    · rw [if_pos ⟨Ne.symm h0.1, hc⟩, ih h0.2, List.dropWhile_cons_of_pos (by simpa using hc),
        List.takeWhile_cons_of_pos (by simpa using hc), List.length_cons, Nat.add_assoc, Nat.add_comm 1]

private theorem hashLoop_append (h0 : 0 ∉ s) (n : Nat) :
    hashLoop (s ++ 0 :: junk) n =
      match s.dropWhile (· ≠ ch '.') with
      | [] => if n + (s.takeWhile (· ≠ ch '.')).length = 1 then some none
        else some (some (0 :: junk, n + (s.takeWhile (· ≠ ch '.')).length))
      | _ :: rest => some (some (rest ++ 0 :: junk, n + (s.takeWhile (· ≠ ch '.')).length)) := by
  induction s generalizing n with
  | nil => rfl
  | cons c s ih =>
    rw [List.mem_cons, not_or] at h0
    rw [List.cons_append, hashLoop]
    by_cases hc : c = ch '.'
    · rw [if_pos hc, List.dropWhile_cons_of_neg (by simp [hc]), List.takeWhile_cons_of_neg (by simp [hc])]
      rfl
    · rw [if_neg hc, if_neg (Ne.symm h0.1), ih h0.2, List.dropWhile_cons_of_pos (by simpa using hc),
        List.takeWhile_cons_of_pos (by simpa using hc), List.length_cons, Nat.add_assoc, Nat.add_comm 1]

private theorem prvCreatePathSegment_literal {c : UInt8} (hc : c ≠ ch '#') (h0 : 0 ∉ c :: s) :
    prvCreatePathSegment (c :: s ++ 0 :: junk) =
      some (some ⟨((c :: s).dropWhile (· ≠ ch '.') ++ 0 :: junk).tail, c :: s ++ 0 :: junk,
        ((c :: s).takeWhile (· ≠ ch '.')).length, (c :: s).dropWhile (· ≠ ch '.') = []⟩) := by
  have hloop : literalLoop (c :: s ++ 0 :: junk) 0 = _ := literalLoop_append h0 0
  have hzero := (not_or.1 (mt List.mem_cons.2 h0)).1
  have hsub := (List.dropWhile_suffix (· ≠ ch '.') (l := c :: s)).subset
  rw [List.cons_append, prvCreatePathSegment]
  rw [if_neg (Ne.symm hzero), if_neg hc, ← List.cons_append, hloop, Nat.zero_add]
  cases hd : (c :: s).dropWhile (· ≠ ch '.') with
  | nil => rfl
  | cons d rest =>
    have hne : ¬ d = 0 := by
      rintro rfl
      rw [hd] at hsub
      exact h0 (hsub List.mem_cons_self)
    rw [List.cons_append]
    dsimp only
    rw [decide_eq_false hne, decide_eq_false (List.cons_ne_nil d rest)]
    rfl

private theorem prvCreatePathSegment_hash (h0 : 0 ∉ ch '#' :: s) {ds d : List UInt8} (hds : s.takeWhile (· ≠ ch '.') = ds)
    (hd : s.dropWhile (· ≠ ch '.') = d) :
    prvCreatePathSegment (ch '#' :: s ++ 0 :: junk) =
      if ds = [] ∧ d = [] then some none
      else some (some ⟨d.tail ++ 0 :: junk, ch '#' :: s ++ 0 :: junk, ds.length + 1, d.tail = []⟩) := by
  have hloop : hashLoop (ch '#' :: s ++ 0 :: junk) 0 = _ := hashLoop_append h0 0
  have hsub := (List.dropWhile_suffix (· ≠ ch '.') (l := s)).subset
  rw [List.takeWhile_cons_of_pos (by decide), List.dropWhile_cons_of_pos (by decide), hds, hd, List.length_cons, Nat.zero_add] at hloop
  rw [List.cons_append, prvCreatePathSegment]
  rw [if_neg (by decide), if_pos rfl, ← List.cons_append, hloop]
  rw [hd] at hsub
  cases d with
  | nil =>
    cases ds with
    | nil => rfl
    | cons => rfl
  | cons d rest =>
    have hnot : ¬ (ds = [] ∧ d :: rest = []) := fun h => List.cons_ne_nil _ _ h.2
    rw [if_neg hnot]
    dsimp only
    cases rest with
    | nil => rfl
    | cons e rest =>
      have hne : ¬ e = 0 := by
        rintro rfl
        exact h0 (List.mem_cons_of_mem _ (hsub (List.mem_cons_of_mem _ List.mem_cons_self)))
      have hcons : e :: rest ++ 0 :: junk = e :: (rest ++ 0 :: junk) := rfl
      rw [List.tail_cons, hcons, List.head?_cons, Option.map_some, decide_eq_false hne, decide_eq_false (List.cons_ne_nil e rest)]

/-- The nodes that a path leads to from a node. -/
def results (path : List UInt8) (t : Nat × Label R × Forest (Label R)) : List Nat :=
  match segments path with
  | none => []
  | some ss => found ss t

/-- The nodes that what follows a segment leads to. -/
def resultsAfter (last : Bool) (rest : List UInt8) (t : Nat × Label R × Forest (Label R)) : List Nat :=
  if last then [t.1] else results rest t

theorem results_nil (t : Nat × Label R × Forest (Label R)) : results [] t = [] := by
  rw [results, segments]

/-- What the segments that are left lead to. -/
theorem results_cons {path rest : List UInt8} {seg : Segment} {t : Nat × Label R × Forest (Label R)}
    {children : List (Nat × Label R × Forest (Label R))} (hpath : segments path = (segments rest).map (seg :: ·))
    (h : ∀ ss, found (seg :: ss) t = children.flatMap (found ss)) : results path t = children.flatMap (results rest) := by
  rw [results, hpath]
  cases hrest : segments rest with
  | none =>
    have hnone : results rest = fun _ : Nat × Label R × Forest (Label R) => [] := by
      funext c
      rw [results, hrest]
    rw [hnone]
    simp
  | some ss =>
    have hsome : results rest = found (R := R) ss := by
      funext c
      rw [results, hrest]
    rw [hsome]
    exact h ss

theorem results_last {path : List UInt8} {seg : Segment} {t : Nat × Label R × Forest (Label R)}
    {children : List (Nat × Label R × Forest (Label R))} (hpath : segments path = some [seg])
    (h : ∀ ss, found (seg :: ss) t = children.flatMap (found ss)) :
    results path t = children.flatMap fun c => [c.1] := by
  rw [results, hpath]
  exact h []

private theorem segment_literal {c : UInt8} (hc : c ≠ ch '#') (s : List UInt8) :
    segment ((c :: s).takeWhile (· ≠ ch '.')) = some (.name ((c :: s).takeWhile (· ≠ ch '.'))) := by
  by_cases hdot : c = ch '.'
  · rw [List.takeWhile_cons_of_neg (by simp [hdot])]
    rfl
  · rw [List.takeWhile_cons_of_pos (by simpa using hdot), segment, if_neg hc]

theorem results_literal {c : UInt8} (hc : c ≠ ch '#') (t : Nat × Label R × Forest (Label R)) :
    results (c :: s) t =
      if t.2.1.type = .object then
        ((t.2.2.trees (t.1 + 1)).filter fun c' => c'.2.1.name.map Prod.fst = some ((c :: s).takeWhile (· ≠ ch '.'))).flatMap
          (resultsAfter ((c :: s).dropWhile (· ≠ ch '.') = []) ((c :: s).dropWhile (· ≠ ch '.')).tail)
      else [] := by
  generalize hw : (c :: s).takeWhile (· ≠ ch '.') = w
  have hseg := hw ▸ segment_literal hc s
  have hfound (ss : List Segment) : found (.name w :: ss) t =
      (if t.2.1.type = .object then
        (t.2.2.trees (t.1 + 1)).filter fun c' => c'.2.1.name.map Prod.fst = some w else []).flatMap (found ss) := by
    rw [found]
    split <;> rfl
  have hif (f : Nat × Label R × Forest (Label R) → List Nat) :
      (if t.2.1.type = .object then (t.2.2.trees (t.1 + 1)).filter (fun c' => c'.2.1.name.map Prod.fst = some w) else []).flatMap f =
        if t.2.1.type = .object then
          ((t.2.2.trees (t.1 + 1)).filter fun c' => c'.2.1.name.map Prod.fst = some w).flatMap f
        else [] := by
    split <;> rfl
  rw [← hif]
  cases hd : (c :: s).dropWhile (· ≠ ch '.') with
  | nil =>
    refine results_last ?_ hfound
    rw [segments, hw, hseg, Option.bind_some]
    split
    · rfl
    next heq => cases heq.symm.trans hd
  | cons d rest =>
    refine results_cons ?_ hfound
    rw [segments, hw, hseg, Option.bind_some]
    split
    next heq => cases heq.symm.trans hd
    next heq =>
      cases heq.symm.trans hd
      rfl

/-- The children that an index or its absence chooses. -/
def chosen (ds d : List UInt8) (children : List (Nat × Label R × Forest (Label R))) : List Nat :=
  if ds = [] then (if d = [] then [] else children.flatMap (results d.tail))
  else
    match parseIndex ds 0 with
    | none => []
    | some i => children[i]?.toList.flatMap (resultsAfter (d.tail = []) d.tail)

private theorem chosen_nil (ds d : List UInt8) : chosen (R := R) ds d [] = [] := by
  rw [chosen]
  split
  · split <;> rfl
  · split <;> simp

theorem results_hash (t : Nat × Label R × Forest (Label R)) :
    results (ch '#' :: s) t =
      chosen (s.takeWhile (· ≠ ch '.')) (s.dropWhile (· ≠ ch '.')) (if t.2.1.type = .array then t.2.2.trees (t.1 + 1) else []) := by
  generalize hchildren : (if t.2.1.type = .array then t.2.2.trees (t.1 + 1) else []) = children
  have hany (ss : List Segment) : found (.any :: ss) t = children.flatMap (found ss) := by
    rw [found, ← hchildren]
    split <;> rfl
  have hindex (i : Nat) (ss : List Segment) : found (.index i :: ss) t = children[i]?.toList.flatMap (found ss) := by
    rw [found, ← hchildren]
    split
    · rfl
    · simp
  have hw : (ch '#' :: s).takeWhile (· ≠ ch '.') = ch '#' :: s.takeWhile (· ≠ ch '.') := List.takeWhile_cons_of_pos (by decide)
  have hd : (ch '#' :: s).dropWhile (· ≠ ch '.') = s.dropWhile (· ≠ ch '.') := List.dropWhile_cons_of_pos (by decide)
  have hnone {path : List UInt8} (h : segments path = none) : results path t = [] := by rw [results, h]
  rw [chosen]
  by_cases hds : s.takeWhile (· ≠ ch '.') = []
  · rw [if_pos hds]
    have hseg : segment (ch '#' :: s.takeWhile (· ≠ ch '.')) = some .any := by
      rw [hds]
      rfl
    cases hdot : s.dropWhile (· ≠ ch '.') with
    | nil =>
      rw [if_pos rfl]
      apply hnone
      rw [segments, hw, hseg, Option.bind_some]
      split
      · rfl
      next heq => cases heq.symm.trans (hd.trans hdot)
    | cons e rest =>
      rw [if_neg (List.cons_ne_nil e rest)]
      refine results_cons ?_ hany
      rw [segments, hw, hseg, Option.bind_some]
      split
      next heq => cases heq.symm.trans (hd.trans hdot)
      next heq =>
        cases heq.symm.trans (hd.trans hdot)
        rfl
  · rw [if_neg hds]
    have hseg : segment (ch '#' :: s.takeWhile (· ≠ ch '.')) = (parseIndex (s.takeWhile (· ≠ ch '.')) 0).map .index := by
      rw [segment, if_pos rfl, if_neg hds]
    cases hindexOf : parseIndex (s.takeWhile (· ≠ ch '.')) 0 with
    | none =>
      apply hnone
      rw [segments, hw, hseg, hindexOf]
      rfl
    | some i =>
      rw [hindexOf, Option.map_some] at hseg
      have hlast (hrest : (s.dropWhile (· ≠ ch '.')).tail = []) : segments (ch '#' :: s) = some [.index i] := by
        rw [segments, hw, hseg, Option.bind_some]
        split
        · rfl
        next heq =>
          rw [← hd, heq, List.tail_cons] at hrest
          subst hrest
          rfl
      dsimp only
      by_cases hrest : (s.dropWhile (· ≠ ch '.')).tail = []
      · rw [hrest]
        exact results_last (hlast hrest) (hindex i)
      · obtain ⟨e, rest, hdot⟩ : ∃ e rest, s.dropWhile (· ≠ ch '.') = e :: rest := by
          apply List.exists_cons_of_ne_nil
          intro hnil
          rw [hnil] at hrest
          exact hrest rfl
        rw [hdot, List.tail_cons] at hrest ⊢
        rw [decide_eq_false hrest]
        refine results_cons ?_ (hindex i)
        rw [segments, hw, hseg, Option.bind_some]
        split
        next heq => cases heq.symm.trans (hd.trans hdot)
        next heq =>
          cases heq.symm.trans (hd.trans hdot)
          split
          next hnil _ => exact (hrest rfl).elim
          next => rfl

/-! ### The search -/

/-- The tokens hold the tree of the node, and its nodes are such as the parser makes. -/
structure At (o : LwjsonT R) (t : Nat × Label R × Forest (Label R)) : Prop where
  cell : ∃ next, (o.deref (loc t.1)).map Token.trim = some (t.2.1.token next (Forest.link loc (t.1 + 1) none t.2.2))
  kids : Forest.Laid loc Label.token (fun r => (o.deref r).map Token.trim) (t.1 + 1) none t.2.2
  zero : if IsContainer t.2.1.type then t.2.1.u = .zero else t.2.2 = .nil
  nodes : Nodes t.2.1.type t.2.2
  size : t.2.2.size ≤ o.tokens.length + 1

variable {o : LwjsonT R} {t : Nat × Label R × Forest (Label R)}

theorem At.child (h : At o t) {c : Nat × Label R × Forest (Label R)} (hc : c ∈ t.2.2.trees (t.1 + 1)) : At o c := by
  obtain ⟨hcell, hkids⟩ := Forest.laid_of_mem_trees loc Label.token h.kids hc
  obtain ⟨-, -, hzero, hnodes⟩ := h.nodes.of_mem_trees hc
  exact ⟨hcell, hkids, hzero, hnodes, (Nat.le_of_lt (size_of_mem_trees hc)).trans h.size⟩

/-- The token of the node. -/
theorem At.token (h : At o t) :
    ∃ parent, o.deref (loc t.1) = some parent ∧ parent.type = t.2.1.type ∧
      (IsContainer t.2.1.type → parent.firstChild = some (Forest.link loc (t.1 + 1) none t.2.2)) := by
  obtain ⟨next, hcell⟩ := h.cell
  obtain ⟨parent, hparent, htrim⟩ := Option.map_eq_some_iff.1 hcell
  exact ⟨parent, hparent, type_of_trim htrim, fun htype => firstChild_of_trim htrim ((if_pos htype).mp h.zero)⟩

/-- A scan of the children gives what the first of them gives. -/
theorem At.firstFrom (h : At o t) {visit : Ref → Token R → Option (Option Ref)} {f : Nat × Label R × Forest (Label R) → List Nat}
    (hvisit : ∀ c ∈ t.2.2.trees (t.1 + 1), ∀ tkn next, tkn.trim = c.2.1.token next (Forest.link loc (c.1 + 1) none c.2.2) →
      visit (loc c.1) tkn = some ((f c).head?.map loc)) :
    Forest.firstFrom Token.next o.deref visit (o.tokens.length + 1) (Forest.link loc (t.1 + 1) none t.2.2) =
      some (((t.2.2.trees (t.1 + 1)).flatMap f).head?.map loc) := by
  rw [Forest.firstFrom_laid loc Label.token (fun _ _ _ _ => next_of_trim) h.kids h.size fun c hc tkn next _ htrim _ =>
    hvisit c hc tkn next htrim, List.head?_flatMap, List.map_findSome?]
  rfl

/-- The children with a name, one after the other. -/
theorem flatMap_filter {α β : Type} (l : List α) (p : α → Bool) (f : α → List β) :
    (l.filter p).flatMap f = l.flatMap fun a => if p a then f a else [] := by
  induction l with
  | nil => rfl
  | cons a l ih =>
    rw [List.filter_cons, List.flatMap_cons, ← ih]
    cases p a with
    | true => rfl
    | false => rfl

/-- The calls for the rest of the path, on the children. -/
def Finds (o : LwjsonT R) (fuel : Nat) (junk s : List UInt8) (t : Nat × Label R × Forest (Label R)) : Prop :=
  ∀ rest, rest <:+ s → ∀ c ∈ t.2.2.trees (t.1 + 1), prvFind o fuel (loc c.1) (rest ++ 0 :: junk) = some ((results rest c).head?.map loc)

private theorem prvFind_hash {fuel : Nat} (h0 : 0 ∉ ch '#' :: s) (ht : At o t) (hrest : Finds o fuel junk s t) :
    prvFind o (fuel + 1) (loc t.1) (ch '#' :: s ++ 0 :: junk) = some ((results (ch '#' :: s) t).head?.map loc) := by
  obtain ⟨parent, hparent, htype, hfirst⟩ := ht.token
  have hsuffix : (s.dropWhile (· ≠ ch '.')).tail <:+ s := (List.tail_suffix _).trans (List.dropWhile_suffix _)
  have htake : ((ch '#' :: s ++ 0 :: junk).take ((s.takeWhile (· ≠ ch '.')).length + 1)).drop 1 = s.takeWhile (· ≠ ch '.') := by
    rw [List.cons_append, List.take_succ_cons, List.drop_one, List.tail_cons]
    have hsplit := List.takeWhile_append_dropWhile (p := (· ≠ ch '.')) (l := s)
    conv_lhs => rw [← hsplit, List.append_assoc]
    rw [hsplit]
    exact List.take_left
  rw [prvFind, hparent, prvCreatePathSegment_hash h0 rfl rfl, results_hash, chosen]
  generalize s.takeWhile (· ≠ ch '.') = ds at htake ⊢
  generalize s.dropWhile (· ≠ ch '.') = d at hsuffix ⊢
  by_cases hnone : ds = [] ∧ d = []
  · rw [if_pos hnone, if_pos hnone.1, if_pos hnone.2]
    rfl
  rw [if_neg hnone]
  dsimp only
  rw [if_pos (by rfl), htype]
  by_cases harray : t.2.1.type = .array
  · rw [if_neg (not_not.2 harray), if_pos harray, hfirst (.inr harray)]
    dsimp only
    by_cases hds : ds = []
    · have hd : d ≠ [] := fun hd => hnone ⟨hds, hd⟩
      rw [if_neg (by rw [hds]; exact Nat.lt_irrefl 1), if_pos hds, if_neg hd]
      exact ht.firstFrom fun c' hc' _ _ _ => hrest _ hsuffix c' hc'
    · rw [if_pos (Nat.succ_lt_succ (List.length_pos_iff.2 hds)), if_neg hds, htake]
      cases parseIndex ds 0 with
      | none => rfl
      | some i =>
        dsimp only
        rw [Forest.nthFrom_laid loc Label.token (fun _ _ _ _ => next_of_trim) ht.kids]
        cases hget : (t.2.2.trees (t.1 + 1))[i]? with
        | none => rfl
        | some c' =>
          rw [Option.map_some]
          dsimp only
          rw [Option.toList_some, List.flatMap_singleton, resultsAfter]
          by_cases hlast : d.tail = []
          · rw [decide_eq_true hlast, if_pos rfl, if_pos rfl]
            rfl
          · rw [decide_eq_false hlast, if_neg Bool.false_ne_true, if_neg Bool.false_ne_true]
            exact hrest _ hsuffix c' (List.mem_of_getElem? hget)
  · rw [if_pos harray, if_neg harray]
    split
    · split <;> rfl
    · split <;> simp

private theorem prvFind_literal {fuel : Nat} {c : UInt8} (hc : c ≠ ch '#') (h0 : 0 ∉ c :: s) (ht : At o t)
    (hrest : Finds o fuel junk s t) :
    prvFind o (fuel + 1) (loc t.1) (c :: s ++ 0 :: junk) = some ((results (c :: s) t).head?.map loc) := by
  obtain ⟨parent, hparent, htype, hfirst⟩ := ht.token
  have hsplit := List.takeWhile_append_dropWhile (p := (· ≠ ch '.')) (l := c :: s)
  have hw : 0 ∉ (c :: s).takeWhile (· ≠ ch '.') := fun hmem => h0 ((List.takeWhile_subset _) hmem)
  have hhead : ¬ (c :: s ++ 0 :: junk).head? = some (ch '#') := fun heq => hc (Option.some.inj heq)
  have hpath : c :: s ++ 0 :: junk = (c :: s).takeWhile (· ≠ ch '.') ++ ((c :: s).dropWhile (· ≠ ch '.') ++ 0 :: junk) := by
    rw [← List.append_assoc, hsplit]
  rw [prvFind, hparent, prvCreatePathSegment_literal hc h0, results_literal hc]
  dsimp only
  rw [if_neg hhead, htype]
  by_cases hobject : t.2.1.type = .object
  · rw [if_neg (not_not.2 hobject), if_pos hobject, hfirst (.inl hobject), flatMap_filter]
    dsimp only
    apply ht.firstFrom
    intro c' hc' tkn next htrim
    obtain ⟨hname, hexact, -, -⟩ := ht.nodes.of_mem_trees hc'
    rw [hpath, hasName_of_trim htrim hexact (hname hobject) hw]
    by_cases hsame : c'.2.1.name.map Prod.fst = some ((c :: s).takeWhile (· ≠ ch '.'))
    · rw [decide_eq_true hsame, if_pos rfl, resultsAfter]
      dsimp only
      cases hd : (c :: s).dropWhile (· ≠ ch '.') with
      | nil => rfl
      | cons d rest =>
        have hsuffix : rest <:+ s := by
          rcases List.suffix_cons_iff.1 (hd ▸ List.dropWhile_suffix _ : d :: rest <:+ c :: s) with heq | hsuffix
          · cases heq
            exact List.suffix_refl _
          · exact suffix_of_cons hsuffix
        rw [decide_eq_false (List.cons_ne_nil d rest), if_neg Bool.false_ne_true, if_neg Bool.false_ne_true]
        exact hrest rest hsuffix c' hc'
    · rw [decide_eq_false hsame, if_neg Bool.false_ne_true]
      rfl
  · rw [if_pos hobject, if_neg hobject]
    rfl

theorem prvFind_spec {fuel : Nat} {path : List UInt8} (h0 : 0 ∉ path) (hfuel : path.length < fuel) (ht : At o t) :
    prvFind o fuel (loc t.1) (path ++ 0 :: junk) = some ((results path t).head?.map loc) := by
  induction fuel generalizing path t with
  | zero => exact (Nat.not_lt_zero _ hfuel).elim
  | succ fuel ih =>
    cases path with
    | nil =>
      obtain ⟨parent, hparent, -, -⟩ := ht.token
      rw [prvFind, hparent, results_nil]
      rfl
    | cons c s =>
      rw [List.length_cons] at hfuel
      have hrest : Finds o fuel junk s t := by
        intro rest hsuffix c' hc'
        have hle := hsuffix.length_le
        exact ih (fun hmem => h0 (List.mem_cons_of_mem _ (hsuffix.subset hmem))) (by omega) (ht.child hc')
      by_cases hc : c = ch '#'
      · subst hc
        exact prvFind_hash h0 ht hrest
      · exact prvFind_literal hc h0 ht hrest

/-- A node of the tree with its number. -/
inductive Node (tree : Tree R) : Nat × Label R × Forest (Label R) → Prop
  | root : Node tree (0, tree)
  | child {t c : Nat × Label R × Forest (Label R)} (h : Node tree t) (hc : c ∈ t.2.2.trees (t.1 + 1)) : Node tree c

theorem Shows.at_node [LwReal R] {text : List UInt8} {tree : Tree R} (h : Shows o tree) (hdoc : Document text tree)
    (hnode : Node tree t) : At o t := by
  induction hnode with
  | root =>
    obtain ⟨hcell, hkids, -⟩ := h.laid
    refine ⟨⟨none, hcell⟩, hkids, ?_, ?_, h.room.trans (Nat.le_succ _)⟩
    · cases hdoc with
      | closed _ _ htype _ _ => exact (if_pos htype).mpr rfl
      | cut _ htype _ _ _ => exact (if_pos htype).mpr rfl
    · cases hdoc with
      | closed _ _ _ _ hitems => exact hitems.nodes
      | cut _ _ _ _ hitems => exact hitems.nodes
  | child _ hc ih => exact ih.child hc

private theorem results_of_not_container (hzero : ¬ IsContainer t.2.1.type) (path : List UInt8) : results path t = [] := by
  cases path with
  | nil => exact results_nil t
  | cons c s =>
    by_cases hc : c = ch '#'
    · rw [hc, results_hash, if_neg fun h => hzero (.inr h), chosen_nil]
    · rw [results_literal hc, if_neg fun h => hzero (.inl h)]

theorem lwjsonFind_spec [LwReal R] {text path : List UInt8} {tree : Tree R} (h : Shows o tree) (hdoc : Document text tree)
    (h0 : 0 ∉ path) : lwjsonFind o (some (path ++ 0 :: junk)) = some ((results path (0, tree)).head?.map loc) := by
  have hfuel : path.length < (path ++ 0 :: junk).length + 1 := by
    rw [List.length_append]
    omega
  rw [lwjsonFind, if_neg (by rw [h.parsed]; exact Bool.noConfusion)]
  exact prvFind_spec h0 hfuel (h.at_node hdoc .root)

theorem lwjsonFindEx_spec [LwReal R] {text path : List UInt8} {tree : Tree R} (h : Shows o tree) (hdoc : Document text tree)
    (hnode : Node tree t) (h0 : 0 ∉ path) :
    lwjsonFindEx o (some (loc t.1)) (some (path ++ 0 :: junk)) = some ((results path t).head?.map loc) := by
  have hat := h.at_node hdoc hnode
  obtain ⟨parent, hparent, htype, -⟩ := hat.token
  have hfuel : path.length < (path ++ 0 :: junk).length + 1 := by
    rw [List.length_append]
    omega
  rw [lwjsonFindEx]
  dsimp only
  rw [if_neg (by rw [h.parsed]; exact Bool.noConfusion), Option.getD_some, hparent]
  dsimp only
  rw [htype]
  by_cases hcontainer : IsContainer t.2.1.type
  · rw [if_neg fun h => hcontainer.elim h.2 h.1]
    exact prvFind_spec h0 hfuel hat
  · rw [if_pos ⟨fun h => hcontainer (.inr h), fun h => hcontainer (.inl h)⟩, results_of_not_container hcontainer]
    rfl

/-- **After a successful parse `lwjson_find` gives, for every path, the first node in the order of the text that the segments of the path lead to from the root, and `lwjson_find_ex` the first one from the node that it is given.** -/
theorem lwjsonFind_first [LwReal R] {o : LwjsonT R} {text junk : List UInt8} {len : Nat} (h0 : 0 ∉ text) (hlen : len ≠ 0)
    {o' : LwjsonT R} (hparse : lwjsonParseEx o (some (text ++ 0 :: junk)) len = some (.ok, o')) :
    ∃ tree, Document (text.take len) tree ∧ Shows o' tree ∧ ∀ path junk', 0 ∉ path →
      lwjsonFind o' (some (path ++ 0 :: junk')) = some ((results path (0, tree)).head?.map loc) ∧
      ∀ t, Node tree t →
        lwjsonFindEx o' (some (loc t.1)) (some (path ++ 0 :: junk')) = some ((results path t).head?.map loc) := by
  obtain ⟨r, p, heq, -, hcode⟩ := lwjsonParseEx_spec o h0 hlen junk
  cases hparse.symm.trans heq
  cases htext : parseText (R := R) 0 o.tokens.length (text.take len) with
  | error e =>
    rw [htext] at hcode
    rcases parseText_fails htext with rfl | rfl | rfl <;> cases hcode
  | ok tree =>
    rw [htext] at hcode
    have hdoc := (document_of_parseText htext).1
    refine ⟨trimTree tree, hdoc, hcode.2, ?_⟩
    intro path junk' hpath
    exact ⟨lwjsonFind_spec hcode.2 hdoc hpath, fun t hnode => lwjsonFindEx_spec hcode.2 hdoc hnode hpath⟩

theorem lwjsonFind_first_name :
    ∃ o', lwjsonParseEx (lwjsonInit [.zero] : LwjsonT ℚ)
        (some ([ch '\x7b', ch '"', ch 'a', ch '"', ch ':', ch '[', ch ']', ch '\x7d'] ++ 0 :: [])) 8 = some (.ok, o') ∧
      ∃ tree, Shows o' tree ∧
        lwjsonFind o' (some ([ch 'a'] ++ 0 :: [])) = some ((results [ch 'a'] (0, tree)).head?.map loc) := by
  refine ⟨_, rfl, ?_⟩
  obtain ⟨tree, -, hshows, hfind⟩ :=
    @lwjsonFind_first ℚ _ (lwjsonInit [.zero]) [ch '\x7b', ch '"', ch 'a', ch '"', ch ':', ch '[', ch ']', ch '\x7d'] [] 8
      (by decide) (by decide) _ rfl
  exact ⟨tree, hshows, (hfind _ _ (by decide)).1⟩

end Vedruino.Lwjson
