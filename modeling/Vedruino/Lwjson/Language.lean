import Vedruino.Lwjson.Cut
import Vedruino.Lwjson.Numbers

/-!
# What the parser takes and what its tokens say

The refinement, the grammar and the cut at the length together: with every instance, every text that a zero byte ends and every length, which code the parser returns and what the tokens then hold.
-/

namespace Vedruino.Lwjson

variable {R : Type} {cap len : Nat} {text junk s t : List UInt8}

/-! ### Tokens by their characters -/

/-- A token with as much of its name and its string as their lengths say. -/
def Token.trim (t : Token R) : Token R := { t with tokenName := t.tokenName.map (·.take t.tokenNameLen), u := t.u.trim }

/-- The token of a label that has the characters of its name and its string. -/
def Label.token (l : Label R) (next child : Option Ref) : Token R where
  next := next
  type := l.type
  tokenName := l.name.map Prod.fst
  tokenNameLen := (l.name.map Prod.snd).getD 0
  u :=
    match child with
    | some r => .firstChild r
    | none => l.u

/-- The instance was parsed, and its tokens are the nodes of the tree in preorder. -/
structure Shows (o : LwjsonT R) (tree : Tree R) : Prop where
  laid : Forest.Laid loc Label.token (fun r => (o.deref r).map Token.trim) 0 none (.cons tree.1 tree.2 .nil)
  pos : o.nextFreeTokenPos = tree.2.size
  room : tree.2.size ≤ o.tokens.length
  parsed : o.parsed = true

/-- The lengths of the name and of the string are those of their characters. -/
def Label.Exact (l : Label R) : Prop := (∀ n ∈ l.name, n.2 = n.1.length) ∧ ∀ value n, l.u = .str value n → n = value.length

/-- The text goes on at least to the end of the name and of the string. -/
def Label.Fits (l : Label R) : Prop := (∀ n ∈ l.name, n.2 ≤ n.1.length) ∧ ∀ value n, l.u = .str value n → n ≤ value.length

theorem Label.Exact.fits {l : Label R} (h : l.trim.Exact) : l.Fits := by
  have hle {n : Nat} {v : List UInt8} (hn : n = (v.take n).length) : n ≤ v.length := by
    rw [List.length_take] at hn
    omega
  constructor
  · intro n hn
    exact hle (h.1 (n.1.take n.2, n.2) (Option.mem_map_of_mem _ hn))
  · intro value n hu
    refine hle (h.2 (value.take n) n ?_)
    rw [Label.trim, hu]
    rfl

theorem Label.Fits.trim_cell {l : Label R} (h : l.Fits) (y : List UInt8) (next child : Option Ref) :
    ((l.extend y).cell junk next child).trim = l.trim.token next child := by
  have htake {n : Nat} {v : List UInt8} (hn : n ≤ v.length) (w : List UInt8) : (v ++ y ++ w).take n = v.take n := by
    rw [List.append_assoc, List.take_append_of_le_length hn]
  obtain ⟨name, type, u⟩ := l
  have hname : ((name.map fun n => (n.1 ++ y, n.2)).map fun n => n.1 ++ 0 :: junk).map
      (·.take (((name.map fun n => (n.1 ++ y, n.2)).map Prod.snd).getD 0)) = (name.map fun n => (n.1.take n.2, n.2)).map Prod.fst := by
    cases name with
    | none => rfl
    | some n => exact congrArg some (htake (h.1 n rfl) _)
  have hu : ((u.extend y).inMemory junk).trim = u.trim := by
    cases u with
    | str value n => exact congrArg (U.str · n) (htake (h.2 value n rfl) _)
    | _ => rfl
  show Token.mk _ _ _ _ _ = Token.mk _ _ _ _ _
  rw [Token.mk.injEq]
  refine ⟨rfl, rfl, hname, ?_, ?_⟩
  · cases name <;> rfl
  · cases child with
    | some r => rfl
    | none => exact hu

variable [LwReal R]

theorem Scalar.exact {cs : List UInt8} {type : LwjsonType} {u : U R} (h : Scalar cs type u) :
    ∀ value n, u = .str value n → n = value.length := by
  intro value n hu
  cases h with
  | string =>
    cases hu
    rfl
  | true_ => cases hu
  | false_ => cases hu
  | null => cases hu
  | number =>
    rw [NumText.value] at hu
    split at hu <;> cases hu

omit [LwReal R] in
theorem ChildName.exact {type : LwjsonType} {p : List UInt8} {n : Option (List UInt8 × Nat)} (h : ChildName type p n) :
    ∀ m ∈ n, m.2 = m.1.length := by
  intro m hm
  cases h with
  | array => cases hm
  | object =>
    cases hm
    rfl

theorem Items.exact {type : LwjsonType} {closed free : Bool} {f : Forest (Label R)} (h : Items type closed free s f) :
    f.All Label.Exact := by
  induction h with
  | close => trivial
  | cut => trivial
  | comma _ _ ih => exact ih
  | scalar _ hname hu _ ih => exact ⟨⟨hname.exact, hu.exact⟩, trivial, ih⟩
  | container _ hname _ _ _ _ ihinner ih => exact ⟨⟨hname.exact, fun _ _ hu => nomatch hu⟩, ihinner, ih⟩

theorem Document.exact {tree : Tree R} (h : Document s tree) : tree.1.Exact ∧ tree.2.All Label.Exact := by
  have hroot (type : LwjsonType) : (⟨none, type, .zero⟩ : Label R).Exact := by
    constructor
    · intro n hn
      cases hn
    · intro value n hu
      cases hu
  cases h with
  | closed _ _ _ _ h => exact ⟨hroot _, h.exact⟩
  | cut _ _ _ _ h => exact ⟨hroot _, h.exact⟩

/-- The tokens that hold the tree of the text show the tree of its characters. -/
theorem HoldsTree.shows {o : LwjsonT R} {old : List (Token R)} {tree : Tree R} {y : List UInt8}
    (h : HoldsTree junk old o (extendTree y tree)) (hdoc : Document s (trimTree tree)) (hroom : tree.2.size ≤ old.length) :
    Shows o (trimTree tree) := by
  obtain ⟨hroot, hkids⟩ := hdoc.exact
  have hfits : (Forest.cons tree.1 tree.2 .nil).All Label.Fits := ⟨hroot.fits, hkids.of_map fun _ => Label.Exact.fits, trivial⟩
  refine ⟨?_, ?_, ?_, h.parsed⟩
  · exact Forest.laid_map loc (Label.cell junk) (fun l next child hl => Label.Fits.trim_cell hl y next child) hfits h.laid
  · rw [h.pos]
    show (tree.2.map _).size = (tree.2.map _).size
    rw [Forest.size_map, Forest.size_map]
  · rw [h.length]
    exact (Forest.size_map ..).trans_le hroom

/-! ### More room -/

theorem round_mono {cap' : Nat} (h : cap ≤ cap') (out : Nat) (z : Open R) (s : List UInt8) :
    round out cap z s = .stop (.error .errMem) ∨ round out cap z s = round out cap' z s := by
  cases z with
  | nil => exact .inr rfl
  | cons frame outer =>
    obtain ⟨l, done⟩ := frame
    rw [round, round]
    split
    · exact .inr rfl
    · exact .inr rfl
    split
    · exact .inr rfl
    split
    · exact .inr rfl
    by_cases hroom : Forest.used ((l, done) :: outer) ≤ cap
    · rw [if_pos hroom, if_pos (hroom.trans h)]
      exact .inr rfl
    · rw [if_neg hroom]
      exact .inl rfl

theorem rounds_mono {cap' fuel out : Nat} (h : cap ≤ cap') (z : Open R) (s : List UInt8) :
    rounds out cap fuel z s = .error .errMem ∨ rounds out cap fuel z s = rounds out cap' fuel z s := by
  induction fuel generalizing z s with
  | zero => exact .inr rfl
  | succ fuel ih =>
    rw [rounds, rounds]
    by_cases hlive : out < s.length
    · rw [if_pos hlive, if_pos hlive]
      rcases round_mono h out z s with hround | hround
      · rw [hround]
        exact .inl rfl
      · rw [hround]
        cases round out cap' z s with
        | stop res => exact .inr rfl
        | again z' t => exact ih z' t
    · rw [if_neg hlive, if_neg hlive]
      exact .inr rfl

/-- With more room for tokens only a text for which there was no room is parsed otherwise. -/
theorem parseText_mono {cap' : Nat} (h : cap ≤ cap') (out : Nat) (s : List UInt8) :
    parseText (R := R) out cap s = .error .errMem ∨ parseText (R := R) out cap s = parseText out cap' s := by
  rw [parseText, parseText]
  split
  next c t _ =>
    by_cases hopen : c = ch '\x7b' ∨ c = ch '['
    · rw [if_pos hopen, if_pos hopen]
      dsimp only
      cases checkOpened out t (if c = ch '\x7b' then LwjsonType.object else .array) with
      | none => exact .inr rfl
      | some v => exact rounds_mono h _ v
    · rw [if_neg hopen, if_neg hopen]
      exact .inr rfl
  · exact .inr rfl

/-- A text of the language for whose tree there is no room. -/
theorem Document.parseText_errMem {tree : Tree R} (h : Document s tree) (hfull : cap < tree.2.size) :
    parseText (R := R) 0 cap s = .error .errMem := by
  obtain ⟨tree', htree', htrim⟩ := h.parseText_eq (Nat.le_refl _)
  rcases parseText_mono (R := R) (Nat.le_of_lt hfull) 0 s with hmem | heq
  · exact hmem
  · have hsize := (document_of_parseText (heq.trans htree')).2
    rw [← htrim] at hfull
    exact (Nat.not_lt.2 hsize (Nat.lt_of_lt_of_eq hfull (Forest.size_map ..))).elim

/-- A text of the language has one tree. -/
theorem Document.unique {tree tree' : Tree R} (h : Document s tree) (h' : Document s tree') : tree = tree' := by
  obtain ⟨t, ht, htrim⟩ := h.parseText_eq (Nat.le_max_left tree.2.size tree'.2.size)
  obtain ⟨t', ht', htrim'⟩ := h'.parseText_eq (Nat.le_max_right tree.2.size tree'.2.size)
  cases ht.symm.trans ht'
  exact htrim.symm.trans htrim'

/-- The codes of the parser. -/
def Fails (r : Lwjsonr) : Prop := r = .err ∨ r = .errJson ∨ r = .errMem

omit [LwReal R] in
theorem atEnd_fails {z : Open R} {r : Lwjsonr} (h : atEnd z = .error r) : Fails r := by
  rcases z with _ | ⟨frame, _ | ⟨frame', outer⟩⟩
  · cases h
    exact .inr (.inl rfl)
  · cases h
  · cases h
    exact .inr (.inl rfl)

theorem round_fails {out : Nat} {z : Open R} {r : Lwjsonr} (h : round out cap z s = .stop (.error r)) : Fails r := by
  cases z with
  | nil =>
    cases h
    exact .inr (.inl rfl)
  | cons frame outer =>
    obtain ⟨l, done⟩ := frame
    rw [round] at h
    split at h
    · cases h
      exact .inr (.inl rfl)
    · cases h
      exact .inr (.inl rfl)
    split at h
    · cases h
    split at h
    · cases outer with
      | nil =>
        dsimp only at h
        split at h
        · cases h
        · cases h
          exact .inl rfl
      | cons => cases h
    split at h
    · split at h
      · cases h
        exact .inr (.inl rfl)
      · cases h
    · cases h
      exact .inr (.inr rfl)

theorem rounds_fails {out fuel : Nat} {z : Open R} {r : Lwjsonr} (h : rounds out cap fuel z s = .error r) : Fails r := by
  induction fuel generalizing z s with
  | zero =>
    cases h
    exact .inr (.inl rfl)
  | succ fuel ih =>
    rw [rounds] at h
    split at h
    · cases hround : round out cap z s with
      | again z' t =>
        rw [hround] at h
        exact ih h
      | stop res =>
        rw [hround] at h
        obtain rfl : res = .error r := h
        exact round_fails hround
    · exact atEnd_fails h

theorem parseText_fails {out : Nat} {r : Lwjsonr} (h : parseText (R := R) out cap s = .error r) : Fails r := by
  rw [parseText] at h
  split at h
  · split at h
    · dsimp only at h
      split at h
      · cases h
        exact .inr (.inl rfl)
      · exact rounds_fails h
    · cases h
      exact .inr (.inl rfl)
  · cases h
    exact .inr (.inl rfl)

/-! ### The parser -/

/-- What the parser leaves of the instance. -/
structure Leaves (o o' : LwjsonT R) (r : Lwjsonr) : Prop where
  length : o'.tokens.length = o.tokens.length
  pos : o'.nextFreeTokenPos ≤ o'.tokens.length
  parsed : o'.parsed = true ↔ r = .ok
  rest : r = .ok → ∀ i, o'.nextFreeTokenPos ≤ i → o'.tokens[i]? = o.tokens[i]?

/-- What the parser makes of the text, said of the characters before the length. -/
theorem lwjsonParseEx_spec (o : LwjsonT R) (h0 : 0 ∉ text) (hlen : len ≠ 0) (junk : List UInt8) :
    ∃ r o', lwjsonParseEx o (some (text ++ 0 :: junk)) len = some (r, o') ∧ Leaves o o' r ∧
      match parseText (R := R) 0 o.tokens.length (text.take len) with
      | .error e => r = e
      | .ok tree => r = .ok ∧ Shows o' (trimTree tree) := by
  have hrefines := lwjsonParseEx_refines o h0 hlen junk
  have hcut : parseText (R := R) _ o.tokens.length _ = _ := parseText_cut (text.take len) (text.drop len)
  rw [List.take_append_drop, List.length_drop] at hcut
  rw [hcut] at hrefines
  cases hparse : parseText (R := R) 0 o.tokens.length (text.take len) with
  | error e =>
    rw [hparse] at hrefines
    obtain ⟨hne, o', heq, hbounded⟩ := hrefines
    refine ⟨e, o', heq, ⟨hbounded.length, hbounded.room.trans_eq hbounded.length.symm, ?_, fun h => (hne h).elim⟩, rfl⟩
    rw [hbounded.parsed]
    exact iff_of_false Bool.false_ne_true hne
  | ok tree =>
    rw [hparse] at hrefines
    obtain ⟨o', heq, hholds⟩ := hrefines
    obtain ⟨hdoc, hroom⟩ := document_of_parseText hparse
    refine ⟨.ok, o', heq, ⟨hholds.length, ?_, iff_of_true hholds.parsed rfl, fun _ => hholds.rest⟩, rfl, hholds.shows hdoc hroom⟩
    rw [hholds.pos, hholds.length]
    exact (Forest.size_map ..).trans_le hroom

theorem lwjsonParse_eq (o : LwjsonT R) (h0 : 0 ∉ text) (junk : List UInt8) :
    lwjsonParse o (text ++ 0 :: junk) = lwjsonParseEx o (some (text ++ 0 :: junk)) text.length := by
  rw [lwjsonParse, strlen_append h0]
  rfl

omit [LwReal R] in
theorem Document.ne_nil [LwReal R] {tree : Tree R} (h : Document s tree) : s ≠ [] := by
  cases h with
  | closed => simp
  | cut => simp

/-- **Of every memory that holds a zero byte, with every length and every instance, `lwjson_parse_ex` ends without an access out of bounds; it says of the instance exactly that it was parsed, keeps its array and the tokens beyond those it took, and these are the nodes of a tree in preorder.** -/
theorem lwjsonParseEx_ends (o : LwjsonT R) (memory : List UInt8) (hzero : 0 ∈ memory) (len : Nat) :
    ∃ r o', lwjsonParseEx o (some memory) len = some (r, o') ∧
      (len = 0 ∧ r = .errPar ∧ o' = o ∨
        len ≠ 0 ∧ Leaves o o' r ∧ (Fails r ∨ r = .ok ∧ ∃ tree, Shows o' tree)) := by
  obtain ⟨text, junk, rfl, h0⟩ := List.eq_append_cons_of_mem hzero
  by_cases hlen : len = 0
  · refine ⟨.errPar, o, ?_, .inl ⟨hlen, rfl, rfl⟩⟩
    rw [lwjsonParseEx]
    exact if_pos hlen
  · obtain ⟨r, o', heq, hleaves, hcode⟩ := lwjsonParseEx_spec o h0 hlen junk
    refine ⟨r, o', heq, .inr ⟨hlen, hleaves, ?_⟩⟩
    cases hparse : parseText (R := R) 0 o.tokens.length (text.take len) with
    | error e =>
      rw [hparse] at hcode
      obtain rfl : r = e := hcode
      exact .inl (parseText_fails hparse)
    | ok tree =>
      rw [hparse] at hcode
      exact .inr ⟨hcode.1, _, hcode.2⟩

/-- `{"a":["x",7]}` -/
def nestedText : List UInt8 :=
  [ch '\x7b', ch '"', ch 'a', ch '"', ch ':', ch '[', ch '"', ch 'x', ch '"', ch ',', ch '7', ch ']', ch '\x7d']

theorem lwjsonParseEx_ends_nested :
    ∃ r o', lwjsonParseEx (lwjsonInit (List.replicate 3 .zero) : LwjsonT ℚ) (some (nestedText ++ [0])) 13 = some (r, o') ∧
      Leaves (lwjsonInit (List.replicate 3 .zero)) o' r ∧ (Fails r ∨ r = .ok ∧ ∃ tree, Shows o' tree) := by
  obtain ⟨r, o', heq, hcode⟩ :=
    lwjsonParseEx_ends (lwjsonInit (List.replicate 3 .zero) : LwjsonT ℚ) (nestedText ++ [0]) (by decide) 13
  exact ⟨r, o', heq, (hcode.resolve_left fun h => absurd h.1 (by decide)).2⟩

/-- **`lwjson_parse_ex` takes exactly the texts of the language that have room: before the length there is a text of the language with its tree, and the tokens then show that tree; where there is no room for it the code is `lwjsonERRMEM`, and without one the code is another than `lwjsonOK`.** -/
theorem lwjsonParseEx_language (o : LwjsonT R) (h0 : 0 ∉ text) (hlen : len ≠ 0) (junk : List UInt8) :
    (∀ tree, Document (text.take len) tree → tree.2.size ≤ o.tokens.length →
        ∃ o', lwjsonParseEx o (some (text ++ 0 :: junk)) len = some (.ok, o') ∧ Shows o' tree) ∧
      (∀ tree : Tree R, Document (text.take len) tree → o.tokens.length < tree.2.size →
        ∃ o', lwjsonParseEx o (some (text ++ 0 :: junk)) len = some (.errMem, o')) ∧
      ((∀ tree : Tree R, ¬ Document (text.take len) tree) →
        ∃ r o', lwjsonParseEx o (some (text ++ 0 :: junk)) len = some (r, o') ∧ Fails r) := by
  obtain ⟨r, o', heq, -, hcode⟩ := lwjsonParseEx_spec o h0 hlen junk
  refine ⟨?_, ?_, ?_⟩
  · intro tree hdoc hroom
    obtain ⟨tree', hparse, htrim⟩ := hdoc.parseText_eq hroom
    rw [hparse] at hcode
    obtain ⟨rfl, hshows⟩ := hcode
    exact ⟨o', heq, htrim ▸ hshows⟩
  · intro tree hdoc hfull
    rw [hdoc.parseText_errMem hfull] at hcode
    obtain rfl : r = .errMem := hcode
    exact ⟨o', heq⟩
  · intro hnone
    refine ⟨r, o', heq, ?_⟩
    cases hparse : parseText (R := R) 0 o.tokens.length (text.take len) with
    | error e =>
      rw [hparse] at hcode
      obtain rfl : r = e := hcode
      exact parseText_fails hparse
    | ok tree => exact (hnone _ (document_of_parseText hparse).1).elim

def nestedTree : Tree ℚ :=
  (⟨none, .object, .zero⟩, .cons ⟨some ([ch 'a'], 1), .array, .zero⟩
    (.cons ⟨none, .string, .str [ch 'x'] 1⟩ .nil (.cons ⟨none, .numInt, .numInt 7⟩ .nil .nil)) .nil)

theorem nested_document : Document nestedText nestedTree :=
  (document_of_parseText (rfl : parseText (R := ℚ) 0 3 nestedText = .ok _)).1

theorem lwjsonParseEx_language_nested :
    (∃ o', lwjsonParseEx (lwjsonInit (List.replicate 3 .zero) : LwjsonT ℚ) (some (nestedText ++ 0 :: [])) 13 = some (.ok, o') ∧
      Shows o' nestedTree) ∧
    ∃ o', lwjsonParseEx (lwjsonInit (List.replicate 2 .zero) : LwjsonT ℚ) (some (nestedText ++ 0 :: [])) 13 = some (.errMem, o') := by
  refine ⟨?_, ?_⟩
  · exact (lwjsonParseEx_language (lwjsonInit (List.replicate 3 .zero)) (by decide) (by decide) []).1 _ nested_document (by decide)
  · exact (lwjsonParseEx_language (lwjsonInit (List.replicate 2 .zero)) (by decide) (by decide) []).2.1 _ nested_document (by decide)

/-- The tokens that two parses took say the same. -/
def SameTokens (o o' : LwjsonT R) : Prop :=
  o'.nextFreeTokenPos = o.nextFreeTokenPos ∧
    ∀ i, i ≤ o.nextFreeTokenPos → (o'.deref (loc i)).map Token.trim = (o.deref (loc i)).map Token.trim

omit [LwReal R] in
theorem Shows.same {o o' : LwjsonT R} {tree : Tree R} (h : Shows o tree) (h' : Shows o' tree) : SameTokens o o' := by
  refine ⟨h'.pos.trans h.pos.symm, ?_⟩
  intro i hi
  rw [h.pos] at hi
  refine Forest.laid_unique loc Label.token h'.laid h.laid (Nat.zero_le _) ?_
  rw [Forest.size, Forest.size]
  omega

/-- **What `lwjson_parse_ex` makes of a text depends on nothing but the characters before the length and the number of tokens: not on what the instance held, not on what follows in memory. With more tokens only the code `lwjsonERRMEM` becomes another.** -/
theorem lwjsonParseEx_depends {o o' : LwjsonT R} (h : o.tokens.length ≤ o'.tokens.length) {text' junk' : List UInt8} {len' : Nat}
    (h0 : 0 ∉ text) (h0' : 0 ∉ text') (hlen : len ≠ 0) (hlen' : len' ≠ 0) (hsame : text.take len = text'.take len') :
    ∃ r r' p p', lwjsonParseEx o (some (text ++ 0 :: junk)) len = some (r, p) ∧
      lwjsonParseEx o' (some (text' ++ 0 :: junk')) len' = some (r', p') ∧ (r = .errMem ∨ r' = r ∧ (r = .ok → SameTokens p p')) := by
  obtain ⟨r, p, heq, -, hcode⟩ := lwjsonParseEx_spec o h0 hlen junk
  obtain ⟨r', p', heq', -, hcode'⟩ := lwjsonParseEx_spec o' h0' hlen' junk'
  refine ⟨r, r', p, p', heq, heq', ?_⟩
  rw [← hsame] at hcode'
  rcases parseText_mono (R := R) h 0 (text.take len) with hmem | hmono
  · rw [hmem] at hcode
    exact .inl hcode
  · rw [hmono] at hcode
    right
    revert hcode hcode'
    cases hparse : parseText (R := R) 0 o'.tokens.length (text.take len) with
    | error e =>
      rintro rfl rfl
      exact ⟨rfl, fun hok => (by
        rcases parseText_fails hparse with rfl | rfl | rfl <;> cases hok)⟩
    | ok tree =>
      rintro ⟨rfl, hshows⟩ ⟨rfl, hshows'⟩
      exact ⟨rfl, fun _ => hshows.same hshows'⟩

theorem lwjsonParseEx_depends_nested :
    ∃ r r' p p', lwjsonParseEx (lwjsonInit (List.replicate 3 .zero) : LwjsonT ℚ) (some (nestedText ++ 0 :: [])) 13 = some (r, p) ∧
      lwjsonParseEx (lwjsonInit (List.replicate 4 .zero) : LwjsonT ℚ) (some (nestedText ++ [ch 'x'] ++ 0 :: [7])) 13 = some (r', p') ∧
        (r = .errMem ∨ r' = r ∧ (r = .ok → SameTokens p p')) :=
  lwjsonParseEx_depends (by decide) (by decide) (by decide) (by decide) (by decide) rfl

end Vedruino.Lwjson
