import Vedruino.Lwjson.Tree

/-!
# The tokens hold the tree

After every round of its loop the parser's tokens hold the open nodes of the tree. So on every text the parser ends without a read or a write out of bounds, with the code that the tree of the text has, and where that is `lwjsonOK` its tokens are the nodes of the tree in preorder.
-/

namespace Vedruino.Lwjson

variable {R : Type}

/-- The place of a node: the first token, then the array. -/
def loc : Nat → Ref
  | 0 => .firstToken
  | i + 1 => .token i

theorem loc_injective : Function.Injective loc := by
  intro i j h
  cases i with
  | zero =>
    cases j with
    | zero => rfl
    | succ => cases h
  | succ i =>
    cases j with
    | zero => cases h
    | succ j => rw [Ref.token.inj h]

/-- The token of a label with its links, in a memory where a zero byte and `junk` follow the text. -/
def Label.cell (junk : List UInt8) (l : Label R) (next child : Option Ref) : Token R where
  next := next
  type := l.type
  tokenName := l.name.map fun n => n.1 ++ 0 :: junk
  tokenNameLen := (l.name.map Prod.snd).getD 0
  u :=
    match child with
    | some r => .firstChild r
    | none => l.u.inMemory junk

/-- What a write to a token leaves alone. -/
structure Same (o o' : LwjsonT R) : Prop where
  pos : o'.nextFreeTokenPos = o.nextFreeTokenPos
  length : o'.tokens.length = o.tokens.length
  parsed : o'.parsed = o.parsed

theorem Same.refl (o : LwjsonT R) : Same o o := ⟨rfl, rfl, rfl⟩

/-- A token is written and the others stay. -/
def Wrote (o o' : LwjsonT R) (r : Ref) (t : Token R) : Prop :=
  o'.deref r = some t ∧ (∀ x, x ≠ r → o'.deref x = o.deref x) ∧ Same o o'

theorem write_spec {o : LwjsonT R} {r : Ref} {t : Token R} (h : o.deref r = some t) (f : Token R → Token R) :
    ∃ o', o.write r f = some o' ∧ Wrote o o' r (f t) := by
  cases r with
  | firstToken =>
    cases h
    refine ⟨_, rfl, rfl, ?_, rfl, rfl, rfl⟩
    intro x hx
    cases x with
    | firstToken => exact (hx rfl).elim
    | token i => rfl
  | token i =>
    obtain ⟨hlt, heq⟩ := List.getElem?_eq_some_iff.1 h
    refine ⟨_, if_pos hlt, ?_, ?_, rfl, List.length_modify .., rfl⟩
    · show (o.tokens.modify i f)[i]? = some (f t)
      rw [List.getElem?_modify_eq]
      exact congrArg (Option.map f) h
    · intro x hx
      cases x with
      | firstToken => rfl
      | token j => exact List.getElem?_modify_ne _ _ fun heq => hx (congrArg Ref.token heq.symm)

theorem prvAllocToken_spec {o : LwjsonT R} (h : o.nextFreeTokenPos < o.tokens.length) :
    ∃ o', prvAllocToken o = (o', some (loc (o.nextFreeTokenPos + 1))) ∧ o'.deref (loc (o.nextFreeTokenPos + 1)) = some .zero ∧
      (∀ x, x ≠ loc (o.nextFreeTokenPos + 1) → o'.deref x = o.deref x) ∧ o'.nextFreeTokenPos = o.nextFreeTokenPos + 1 ∧
      o'.tokens.length = o.tokens.length ∧ o'.parsed = o.parsed := by
  refine ⟨_, if_pos h, List.getElem?_set_self h, ?_, rfl, List.length_set, rfl⟩
  intro x hx
  cases x with
  | firstToken => rfl
  | token j => exact List.getElem?_set_ne fun heq => hx (congrArg Ref.token heq.symm)

private theorem prvAllocToken_full {o : LwjsonT R} (h : ¬ o.nextFreeTokenPos < o.tokens.length) : prvAllocToken o = (o, none) := if_neg h

/-! ### The list of the children -/

variable {junk : List UInt8}

private theorem firstChild_cell {l : Label R} (hl : l.u = .zero) (next child : Option Ref) :
    (l.cell junk next child).firstChild = some child := by
  cases child with
  | some r => rfl
  | none =>
    rw [Token.firstChild, Label.cell, hl]
    rfl

theorem addElement_spec {o : LwjsonT R} {a : Label R} {done : Forest (Label R)} {outer : Open R}
    (h : Forest.Opened loc (Label.cell junk) o.deref none ((a, done) :: outer)) (ha : a.u = .zero)
    (hroom : Forest.used ((a, done) :: outer) ≤ o.tokens.length + 1) (t : Ref) :
    ∃ o', addElement o (loc (Forest.used outer)) t = some o' ∧
      Forest.Opened loc (Label.cell junk) o'.deref (some t) ((a, done) :: outer) ∧
      (∀ i, Forest.used ((a, done) :: outer) ≤ i → o'.deref (loc i) = o.deref (loc i)) ∧ Same o o' := by
  obtain ⟨-, hcell, hdone⟩ := id h
  have hne {i j : Nat} (hij : i ≠ j) : loc i ≠ loc j := fun heq => hij (loc_injective heq)
  rcases Forest.eq_nil_or_append done with rfl | ⟨init, b, kids, rfl⟩
  · obtain ⟨o', hwrite, hderef, hrest, hsame⟩ := write_spec hcell fun parent => { parent with u := .firstChild t }
    refine ⟨o', ?_, Forest.opened_link_nil _ loc_injective h hderef hrest, ?_, hsame⟩
    · rw [addElement, hcell]
      simp only [Option.bind_eq_bind, Option.bind_some, firstChild_cell ha, Forest.link]
      exact hwrite
    · intro i hi
      rw [Forest.used] at hi
      exact hrest _ (hne (by omega))
  · obtain ⟨-, hlast, -⟩ := (Forest.laid_append loc (Label.cell junk)).1 hdone
    obtain ⟨o', hwrite, hderef, hrest, hsame⟩ := write_spec hlast fun c => { c with next := some t }
    rw [Forest.used, Forest.size_append, Forest.size] at hroom
    have hlink : ∃ c, Forest.link loc (Forest.used outer + 1) none (init.append (.cons b kids .nil)) = some c := by
      rw [Forest.link_append]
      cases init <;> exact ⟨_, rfl⟩
    obtain ⟨c, hc⟩ := hlink
    have hnext : ∀ (l : Label R) next child, (l.cell junk next child).next = next := fun _ _ _ => rfl
    have hfuel : init.size < o.tokens.length + 1 := by omega
    have hwalk := Forest.lastFrom_append loc (Label.cell junk) hnext hdone hfuel hc
    refine ⟨o', ?_, Forest.opened_link_append _ loc_injective rfl h hderef hrest, ?_, hsame⟩
    · rw [addElement, hcell]
      simp only [Option.bind_eq_bind, Option.bind_some, firstChild_cell ha, hc, hwalk]
      exact hwrite
    · intro i hi
      rw [Forest.used, Forest.size_append, Forest.size] at hi
      exact hrest _ (hne (by omega))

/-! ### A child -/

variable {text s : List UInt8} {len : Nat} {o : LwjsonT R}

theorem parseChildName_spec (len : Nat) (junk : List UInt8) (h0 : 0 ∉ text) (hs : s <:+ text) {r : Ref} (hr : o.deref r = some .zero) (type : LwjsonType) :
    match childName (text.length - len) type s with
    | none => parseChildName (text ++ 0 :: junk) len o type r (s ++ 0 :: junk) = .ret .errJson
    | some (t, name) => ∃ o', parseChildName (text ++ 0 :: junk) len o type r (s ++ 0 :: junk) = .ok (t ++ 0 :: junk, o') ∧
        Wrote o o' r ((⟨name, .string, .zero⟩ : Label R).cell junk none none) := by
  rw [parseChildName, childName]
  by_cases htype : type = .array
  · rw [if_pos htype, if_neg (not_not_intro htype)]
    exact ⟨o, rfl, hr, fun _ _ => rfl, Same.refl o⟩
  · rw [if_neg htype, if_pos htype, read_append, Outcome.ok_bind]
    by_cases hquote : s.head? = some (ch '"')
    · rw [if_pos hquote, if_neg (not_not_intro ((head_eq_iff (by decide) s).2 hquote)), prvParsePropertyName_append h0 hs]
      cases propertyName (text.length - len) s with
      | none => rfl
      | some res =>
        obtain ⟨t, name, n⟩ := res
        obtain ⟨o', hwrite, hwrote⟩ := write_spec hr fun t => { t with tokenName := some (name ++ 0 :: junk), tokenNameLen := n }
        refine ⟨o', ?_, hwrote⟩
        rw [Option.map_some, orJson_some, Outcome.ok_bind]
        dsimp only
        rw [hwrite]
        rfl
    · rw [if_neg hquote, if_pos (mt (head_eq_iff (by decide) s).1 hquote)]

variable [LwReal R]

omit [LwReal R] in
theorem parseContainer_spec (len : Nat) (h0 : 0 ∉ text) {c : UInt8} (hs : c :: s <:+ text) {r : Ref} {name : Option (List UInt8 × Nat)}
    (hr : o.deref r = some ((⟨name, .string, .zero⟩ : Label R).cell junk none none)) (into : Ref) :
    match checkOpened (text.length - len) s (if c = ch '\x7b' then .object else .array) with
    | none => parseContainer (text ++ 0 :: junk) len o into r c (c :: s ++ 0 :: junk) = .ret .errJson
    | some t => ∃ o', parseContainer (text ++ 0 :: junk) len o into r c (c :: s ++ 0 :: junk) = .ok ⟨o', r, t ++ 0 :: junk⟩ ∧
        Wrote o o' r ((⟨name, if c = ch '\x7b' then .object else .array, .zero⟩ : Label R).cell junk (some into) none) := by
  rw [parseContainer, List.cons_append, List.tail_cons, prvCheckValidCharAfterOpenBracket_append h0 (suffix_of_cons hs)]
  cases checkOpened (text.length - len) s (if c = ch '\x7b' then LwjsonType.object else .array) with
  | none => rfl
  | some t =>
    obtain ⟨o', hwrite, hwrote⟩ :=
      write_spec hr fun t => { t with type := if c = ch '\x7b' then .object else .array, next := some into }
    refine ⟨o', ?_, hwrote⟩
    rw [Option.map_some, orJson_some, Outcome.ok_bind, hwrite]
    rfl

theorem parseLeaf_spec (len : Nat) (h0 : 0 ∉ text) {c : UInt8} (hs : c :: s <:+ text) (hlive : text.length - len < s.length + 1) {r : Ref}
    {name : Option (List UInt8 × Nat)} (hr : o.deref r = some ((⟨name, .string, .zero⟩ : Label R).cell junk none none))
    (into : Ref) (z : Open R) :
    match leaf (text.length - len) z name (c :: s) with
    | none => parseLeaf (text ++ 0 :: junk) len o into r c (c :: s ++ 0 :: junk) = .ret .errJson
    | some (z', t) => ∃ o' type u, parseLeaf (text ++ 0 :: junk) len o into r c (c :: s ++ 0 :: junk) = .ok ⟨o', into, t ++ 0 :: junk⟩ ∧
        z' = attach z ⟨name, type, u⟩ .nil ∧ Wrote o o' r ((⟨name, type, u⟩ : Label R).cell junk none none) := by
  rw [parseLeaf, parseScalar_append h0 hs hlive, leaf]
  cases hscalar : scalar (R := R) (text.length - len) (c :: s) with
  | none => rfl
  | some res =>
    obtain ⟨v, type, u⟩ := res
    obtain ⟨hv, -, -⟩ := scalar_spec hscalar
    obtain ⟨o', hwrite, hwrote⟩ := write_spec hr fun t => { t with type, u := u.inMemory junk }
    simp only [Option.map_some, orJson_some, Outcome.ok_bind, hwrite, orFault_some, Option.bind_some,
      skipBlank_append h0 (hv.trans hs)]
    cases hskip : skip (text.length - len) v with
    | none => rfl
    | some w =>
      obtain ⟨hw, -, d, w, rfl⟩ := skip_spec hskip
      have hd := ne_zero_of_suffix h0 (hw.trans (hv.trans hs))
      simp only [Option.map_some, orJson_some, Outcome.ok_bind, List.cons_append, read_cons, hd, false_or, List.tail_cons]
      by_cases hcomma : d = ch ','
      · simp only [hcomma, true_or, not_true_eq_false, if_false, if_true]
        exact ⟨o', type, u, rfl, rfl, hwrote⟩
      · simp only [hcomma, false_or, if_false]
        by_cases hclose : d = ch ']' ∨ d = ch '\x7d'
        · rw [if_pos hclose, if_neg (not_not_intro hclose)]
          exact ⟨o', type, u, rfl, rfl, hwrote⟩
        · rw [if_neg hclose, if_pos hclose]

/-- The pointer `to`. -/
def innermost : Open R → Ref
  | [] => .firstToken
  | _ :: outer => loc (Forest.used outer)

/-- What holds of the instance also where parsing fails. -/
structure Bounded (old : List (Token R)) (o : LwjsonT R) : Prop where
  length : o.tokens.length = old.length
  room : o.nextFreeTokenPos ≤ old.length
  parsed : o.parsed = false

/-- The tokens hold the open nodes, and the tokens that are not allocated are as they were. -/
structure Holds (junk : List UInt8) (old : List (Token R)) (o : LwjsonT R) (z : Open R) : Prop extends Bounded old o where
  opened : Forest.Opened loc (Label.cell junk) o.deref none z
  used : Forest.used z = o.nextFreeTokenPos + 1
  rest : ∀ i, o.nextFreeTokenPos < i → o.deref (loc i) = old[i - 1]?
  containers : ∀ frame ∈ z, IsContainer frame.1.type ∧ frame.1.u = .zero

variable {old : List (Token R)}

/-- A token was allocated after those of the open nodes, and the children of the innermost one link to `stop`. -/
structure Fresh (junk : List UInt8) (old : List (Token R)) (o : LwjsonT R) (stop : Option Ref) (z : Open R) (t : Token R) : Prop
    extends Bounded old o where
  opened : Forest.Opened loc (Label.cell junk) o.deref stop z
  token : o.deref (loc (Forest.used z)) = some t
  pos : o.nextFreeTokenPos = Forest.used z
  rest : ∀ i, o.nextFreeTokenPos < i → o.deref (loc i) = old[i - 1]?
  containers : ∀ frame ∈ z, IsContainer frame.1.type ∧ frame.1.u = .zero

theorem loc_ne {i j : Nat} (h : i ≠ j) : loc i ≠ loc j := fun heq => h (loc_injective heq)

omit [LwReal R] in
theorem Holds.alloc {z : Open R} (h : Holds junk old o z) (hcap : Forest.used z ≤ old.length) :
    ∃ o', prvAllocToken o = (o', some (loc (Forest.used z))) ∧ Fresh junk old o' none z .zero := by
  have hused := h.used
  have hlength := h.length
  obtain ⟨o', halloc, hzero, hkeep, hpos, hlength', hparsed⟩ := prvAllocToken_spec (o := o) (by omega)
  rw [← hused] at halloc hzero hkeep hpos
  refine ⟨o', halloc, ⟨hlength'.trans hlength, hpos ▸ hcap, hparsed.trans h.parsed⟩, ?_, hzero, hpos, ?_, h.containers⟩
  · exact Forest.opened_congr _ _ (fun i hi => hkeep _ (loc_ne (Nat.ne_of_lt hi))) h.opened
  · intro i hi
    rw [hkeep _ (loc_ne (by omega)), h.rest i (by omega)]

omit [LwReal R] in
theorem Fresh.wrote {o' : LwjsonT R} {stop : Option Ref} {z : Open R} {t t' : Token R} (h : Fresh junk old o stop z t)
    (hwrote : Wrote o o' (loc (Forest.used z)) t') : Fresh junk old o' stop z t' := by
  obtain ⟨htoken, hkeep, hsame⟩ := hwrote
  have hpos := hsame.pos.trans h.pos
  refine ⟨⟨hsame.length.trans h.length, hsame.pos ▸ h.room, hsame.parsed.trans h.parsed⟩, ?_, htoken, hpos, ?_, h.containers⟩
  · exact Forest.opened_congr _ _ (fun i hi => hkeep _ (loc_ne (Nat.ne_of_lt hi))) h.opened
  · intro i hi
    rw [hkeep _ (loc_ne (by omega)), h.rest i (by rw [← hsame.pos]; exact hi)]

omit [LwReal R] in
theorem Fresh.addElement {a : Label R} {done : Forest (Label R)} {outer : Open R} {t : Token R}
    (h : Fresh junk old o none ((a, done) :: outer) t) :
    ∃ o', addElement o (innermost ((a, done) :: outer)) (loc (Forest.used ((a, done) :: outer))) = some o' ∧
      Fresh junk old o' (some (loc (Forest.used ((a, done) :: outer)))) ((a, done) :: outer) t := by
  have hroom : Forest.used ((a, done) :: outer) ≤ o.tokens.length + 1 := by
    have hpos := h.pos
    have hle := h.room
    have hlength := h.length
    omega
  obtain ⟨o', hadd, hopened, hkeep, hsame⟩ :=
    addElement_spec h.opened (h.containers _ List.mem_cons_self).2 hroom (loc (Forest.used ((a, done) :: outer)))
  have hpos := hsame.pos.trans h.pos
  refine ⟨o', hadd, ⟨hsame.length.trans h.length, hsame.pos ▸ h.room, hsame.parsed.trans h.parsed⟩, hopened, ?_, hpos, ?_, h.containers⟩
  · rw [hkeep _ (Nat.le_refl _)]
    exact h.token
  · intro i hi
    rw [hkeep i (by omega), h.rest i (by rw [← hsame.pos]; exact hi)]

omit [LwReal R] in
/-- The new node is open. -/
theorem Fresh.push {z : Open R} {l : Label R} (hz : z ≠ []) (hl : IsContainer l.type ∧ l.u = .zero)
    (h : Fresh junk old o (some (loc (Forest.used z))) z (l.cell junk (some (innermost z)) none)) :
    Holds junk old o ((l, .nil) :: z) := by
  refine ⟨h.toBounded, ⟨h.opened, ?_, trivial⟩, ?_, h.rest, List.forall_mem_cons.2 ⟨hl, h.containers⟩⟩
  · rw [h.token]
    cases z with
    | nil => exact (hz rfl).elim
    | cons => rfl
  · rw [Forest.used, h.pos]
    rfl

omit [LwReal R] in
/-- The new node is complete. -/
theorem Fresh.attach {z : Open R} {l : Label R} (hz : z ≠ [])
    (h : Fresh junk old o (some (loc (Forest.used z))) z (l.cell junk none none)) : Holds junk old o (attach z l .nil) := by
  cases z with
  | nil => exact (hz rfl).elim
  | cons frame outer =>
    obtain ⟨a, done⟩ := frame
    obtain ⟨ha, houter⟩ := List.forall_mem_cons.1 h.containers
    refine ⟨h.toBounded, Forest.opened_attach loc _ rfl h.opened h.token trivial, ?_, h.rest, List.forall_mem_cons.2 ⟨ha, houter⟩⟩
    show Forest.used outer + 1 + (done.append (.cons l .nil .nil)).size = _
    rw [h.pos, Forest.size_append]
    rfl

theorem parseElement_spec (len : Nat) (h0 : 0 ∉ text) {c : UInt8} (hs : c :: s <:+ text) (hlive : text.length - len < s.length + 1)
    {a : Label R} {done : Forest (Label R)} {outer : Open R} (h : Fresh junk old o none ((a, done) :: outer) .zero) :
    match element (text.length - len) ((a, done) :: outer) a.type (c :: s) with
    | none => parseElement (text ++ 0 :: junk) len o (innermost ((a, done) :: outer)) (loc (Forest.used ((a, done) :: outer)))
        (c :: s ++ 0 :: junk) = .ret .errJson
    | some (z, t) => ∃ o', parseElement (text ++ 0 :: junk) len o (innermost ((a, done) :: outer))
        (loc (Forest.used ((a, done) :: outer))) (c :: s ++ 0 :: junk) = .ok ⟨o', innermost z, t ++ 0 :: junk⟩ ∧
        Holds junk old o' z := by
  have hparent : o.deref (innermost ((a, done) :: outer)) = _ := h.opened.2.1
  have hname := parseChildName_spec len junk h0 hs h.token a.type
  rw [element, parseElement, hparent, orFault_some, Outcome.ok_bind]
  cases hchild : childName (text.length - len) a.type (c :: s) with
  | none =>
    rw [hchild] at hname
    dsimp only at hname
    rw [show (Label.cell junk a _ _).type = a.type from rfl, hname]
    rfl
  | some res =>
    obtain ⟨v, name⟩ := res
    rw [hchild] at hname
    dsimp only at hname
    obtain ⟨o₂, hparse, hwrote⟩ := hname
    obtain ⟨hv, -, hlivev⟩ := childName_spec hchild
    obtain ⟨o₃, hadd, hfresh⟩ := (h.wrote hwrote).addElement
    rw [show (Label.cell junk a _ _).type = a.type from rfl, hparse, Outcome.ok_bind, Option.bind_some]
    dsimp only
    rw [hadd, orFault_some, Outcome.ok_bind]
    cases v with
    | nil => exact (Nat.not_lt_zero _ (hlivev hlive)).elim
    | cons d v =>
      have hvtext := hv.trans hs
      rw [List.cons_append, read_cons, Outcome.ok_bind]
      dsimp only
      by_cases hopen : d = ch '\x7b' ∨ d = ch '['
      · rw [if_pos hopen, if_pos hopen]
        have hcontainer := parseContainer_spec len h0 hvtext hfresh.token (innermost ((a, done) :: outer))
        cases hcheck : checkOpened (text.length - len) v (if d = ch '\x7b' then .object else .array) with
        | none =>
          rw [hcheck] at hcontainer
          exact hcontainer
        | some w =>
          rw [hcheck] at hcontainer
          obtain ⟨o', hparse', hwrote'⟩ := hcontainer
          refine ⟨o', hparse', (hfresh.wrote hwrote').push (List.cons_ne_nil _ _) ⟨?_, rfl⟩⟩
          dsimp only
          split <;> decide
      · rw [if_neg hopen, if_neg hopen]
        have hleaf := parseLeaf_spec len h0 hvtext (hlivev hlive) hfresh.token (innermost ((a, done) :: outer))
          ((a, done) :: outer)
        cases hcheck : leaf (text.length - len) ((a, done) :: outer) name (d :: v) with
        | none =>
          rw [hcheck] at hleaf
          exact hleaf
        | some r =>
          obtain ⟨z, w⟩ := r
          rw [hcheck] at hleaf
          obtain ⟨o', type, u, hparse', rfl, hwrote'⟩ := hleaf
          exact ⟨o', hparse', (hfresh.wrote hwrote').attach (List.cons_ne_nil _ _)⟩

/-! ### Rounds -/

/-- The code and the tokens for what is known of the tree. -/
def Agrees (junk : List UInt8) (old : List (Token R)) : Except Lwjsonr (Tree R) → Lwjsonr → LwjsonT R → Prop
  | .error r, res, o => res = r ∧ r ≠ .ok ∧ Bounded old o
  | .ok tree, res, o => res = .ok ∧ Holds junk old o [tree]

def AgreesRound (junk : List UInt8) (old : List (Token R)) : Step R → Next R → Prop
  | .stop res, .ret r o => Agrees junk old res r o
  | .again z s, .again st => st.into = innermost z ∧ st.p = s ++ 0 :: junk ∧ z ≠ [] ∧ Holds junk old st.o z
  | _, _ => False

omit [LwReal R] in
theorem closer_cell (l : Label R) (next child : Option Ref) :
    (if (l.cell junk next child).type = .object then ch '\x7d' else ch ']') = closer l.type := rfl

omit [LwReal R] in
/-- What a closing bracket leaves of the open nodes. -/
theorem Holds.close {a l : Label R} {done kids : Forest (Label R)} {outer : Open R} {o' : LwjsonT R}
    (h : Holds junk old o ((l, kids) :: (a, done) :: outer))
    (hwrote : Wrote o o' (innermost ((l, kids) :: (a, done) :: outer))
      (l.cell junk none (Forest.link loc (Forest.used ((a, done) :: outer) + 1) none kids))) :
    Holds junk old o' (attach ((a, done) :: outer) l kids) := by
  obtain ⟨htoken, hkeep, hsame⟩ := hwrote
  have hused := h.used
  obtain ⟨houter, -, hkids⟩ := h.opened
  obtain ⟨-, hcontainers⟩ := List.forall_mem_cons.1 h.containers
  obtain ⟨ha, hcontainers⟩ := List.forall_mem_cons.1 hcontainers
  have hne {i : Nat} (hi : i ≠ Forest.used ((a, done) :: outer)) : o'.deref (loc i) = o.deref (loc i) := hkeep _ (loc_ne hi)
  refine ⟨⟨hsame.length.trans h.length, hsame.pos ▸ h.room, hsame.parsed.trans h.parsed⟩, ?_, ?_, ?_,
    List.forall_mem_cons.2 ⟨ha, hcontainers⟩⟩
  · refine Forest.opened_attach loc _ rfl ?_ htoken ?_
    · exact Forest.opened_congr _ _ (fun i hi => hne (Nat.ne_of_lt hi)) houter
    · exact Forest.laid_congr _ _ (fun i hi _ => hne (by omega)) hkids
  · show Forest.used outer + 1 + (done.append (.cons l kids .nil)).size = _
    rw [hsame.pos, ← hused, Forest.used, Forest.used, Forest.size_append, Forest.size, Forest.size]
    omega
  · intro i hi
    rw [hsame.pos, Nat.lt_iff_add_one_le, ← hused, Forest.used] at hi
    rw [hne (by omega), h.rest i (by rw [Forest.used] at hused; omega)]

omit [LwReal R] in
/-- The first token, which has no parent, is written with another label. -/
theorem Holds.root {a b : Label R} {done : Forest (Label R)} {o' : LwjsonT R} (h : Holds junk old o [(a, done)])
    (hb : IsContainer b.type ∧ b.u = .zero)
    (hwrote : Wrote o o' .firstToken (b.cell junk none (Forest.link loc 1 none done))) : Holds junk old o' [(b, done)] := by
  obtain ⟨htoken, hkeep, hsame⟩ := hwrote
  have hne {i : Nat} (hi : 0 < i) : o'.deref (loc i) = o.deref (loc i) := hkeep _ (loc_ne (j := 0) (Nat.ne_of_gt hi))
  refine ⟨⟨hsame.length.trans h.length, hsame.pos ▸ h.room, hsame.parsed.trans h.parsed⟩, ⟨trivial, htoken, ?_⟩, ?_, ?_,
    List.forall_mem_singleton.2 hb⟩
  · exact Forest.laid_congr _ _ (fun i hi _ => hne hi) h.opened.2.2
  · rw [hsame.pos]
    exact h.used
  · intro i hi
    rw [hsame.pos] at hi
    rw [hne (Nat.zero_lt_of_lt hi), h.rest i hi]

private theorem element_ne_nil {out : Nat} {a : Label R} {done : Forest (Label R)} {outer z : Open R} {type : LwjsonType} {t : List UInt8}
    (h : element out ((a, done) :: outer) type s = some (z, t)) : z ≠ [] := by
  obtain ⟨-, -, ⟨l, -, -, rfl⟩ | ⟨l, -, rfl⟩⟩ := element_spec h
  · exact List.cons_ne_nil _ _
  · exact List.cons_ne_nil _ _

private theorem checkTerminated_append (h0 : 0 ∉ text) (hs : s <:+ text) (hlive : text.length - len ≤ s.length) :
    checkTerminated (text ++ 0 :: junk) len (s ++ 0 :: junk) =
      some (if (blanks (text.length - len) s).length ≤ text.length - len then .ok else .err) := by
  have hle := le_length_blanks hlive
  have hsuffix := (blanks_suffix (text.length - len) s).trans hs
  rw [checkTerminated, prvSkipBlank_append h0 hs]
  revert hle hsuffix
  generalize blanks (text.length - len) s = t
  intro hle hsuffix
  cases t with
  | nil =>
    rw [if_pos (c := ([] : List UInt8).length ≤ _) (Nat.zero_le _)]
    exact congrArg some (if_pos (.inl rfl))
  | cons c t =>
    have hc := ne_zero_of_suffix h0 hsuffix
    have hlength := hsuffix.length_le
    have hiff : (text ++ 0 :: junk).length - (c :: (t ++ 0 :: junk)).length = len ↔ (c :: t).length ≤ text.length - len := by
      simp only [List.length_append, List.length_cons] at hle hlength ⊢
      omega
    rw [List.cons_append]
    dsimp only
    by_cases hend : (c :: t).length ≤ text.length - len
    · rw [if_pos hend, if_pos (.inr (hiff.2 hend))]
    · rw [if_neg hend, if_neg]
      exact fun h => h.elim hc fun h => hend (hiff.1 h)

theorem parseRound_spec (len : Nat) (h0 : 0 ∉ text) (hs : s <:+ text) {z : Open R} (hz : z ≠ []) (h : Holds junk old o z) :
    AgreesRound junk old (round (text.length - len) old.length z s)
      (parseRound (text ++ 0 :: junk) len ⟨o, innermost z, s ++ 0 :: junk⟩) := by
  cases z with
  | nil => exact (hz rfl).elim
  | cons frame outer =>
    obtain ⟨a, done⟩ := frame
    rw [round, parseRound, skipBlank_append h0 hs]
    cases hskip : skip (text.length - len) s with
    | none => exact ⟨rfl, by decide, h.toBounded⟩
    | some v =>
      obtain ⟨hv, hlive, c, v, rfl⟩ := skip_spec hskip
      have hvtext := hv.trans hs
      have hcell : o.deref (innermost ((a, done) :: outer)) = _ := h.opened.2.1
      obtain ⟨o₁, hwrite, hwrote⟩ := write_spec hcell fun t => { t with next := none }
      rw [List.length_cons] at hlive
      rw [Option.map_some, orJson_some, List.cons_append]
      dsimp only
      by_cases hcomma : c = ch ','
      · rw [if_pos hcomma, if_pos hcomma]
        exact ⟨rfl, rfl, List.cons_ne_nil _ _, h⟩
      rw [if_neg hcomma, if_neg hcomma, hcell]
      dsimp only
      rw [closer_cell]
      by_cases hclose : c = closer a.type
      · rw [if_pos hclose, if_pos hclose, hwrite]
        cases outer with
        | nil =>
          have hsame := h.root (h.containers _ List.mem_cons_self) hwrote
          dsimp only [Label.cell, Forest.parent]
          rw [checkTerminated_append h0 (suffix_of_cons hvtext) (by omega)]
          by_cases hend : (blanks (text.length - len) v).length ≤ text.length - len
          · rw [if_pos hend, if_pos hend]
            exact ⟨rfl, hsame⟩
          · rw [if_neg hend, if_neg hend]
            exact ⟨rfl, by decide, hsame.toBounded⟩
        | cons frame outer =>
          obtain ⟨b, bdone⟩ := frame
          exact ⟨rfl, rfl, List.cons_ne_nil _ _, h.close hwrote⟩
      rw [if_neg hclose, if_neg hclose]
      by_cases hcap : Forest.used ((a, done) :: outer) ≤ old.length
      · obtain ⟨o₂, halloc, hfresh⟩ := h.alloc hcap
        have helement := parseElement_spec len h0 hvtext hlive hfresh
        rw [if_pos hcap, halloc]
        dsimp only
        cases hres : element (text.length - len) ((a, done) :: outer) a.type (c :: v) with
        | none =>
          rw [hres] at helement
          rw [← List.cons_append, helement]
          exact ⟨rfl, by decide, hfresh.toBounded⟩
        | some r =>
          obtain ⟨z, t⟩ := r
          rw [hres] at helement
          obtain ⟨o', hparse, hholds⟩ := helement
          rw [← List.cons_append, hparse]
          exact ⟨rfl, rfl, element_ne_nil hres, hholds⟩
      · have hused := h.used
        have hlength := h.length
        rw [if_neg hcap, prvAllocToken_full (by omega)]
        exact ⟨rfl, by decide, h.toBounded⟩

omit [LwReal R] in
theorem afterLoop_spec {z : Open R} (hz : z ≠ []) (h : Holds junk old o z) (p : List UInt8) :
    ∃ r o', afterLoop ⟨o, innermost z, p⟩ = some (r, o') ∧ Agrees junk old (atEnd z) r o' := by
  cases z with
  | nil => exact (hz rfl).elim
  | cons frame outer =>
    obtain ⟨a, done⟩ := frame
    have hcell : o.deref (innermost ((a, done) :: outer)) = _ := h.opened.2.1
    obtain ⟨o₁, hwrite, hwrote⟩ := write_spec hcell fun t => { t with tokenName := none, tokenNameLen := 0 }
    rw [afterLoop]
    dsimp only
    rw [hcell, Option.bind_eq_bind, Option.bind_some]
    cases outer with
    | nil =>
      have hcontainer := h.containers _ List.mem_cons_self
      have htype : ¬ (a.type ≠ .array ∧ a.type ≠ .object) := by
        rintro ⟨harray, hobject⟩
        exact hcontainer.1.elim hobject harray
      rw [if_neg (by rintro (hne | hne) <;> exact hne rfl), hwrite, Option.bind_eq_bind, Option.bind_some]
      exact ⟨_, _, rfl, if_neg htype, h.root (b := { a with name := none }) hcontainer hwrote⟩
    | cons frame outer =>
      obtain ⟨b, bdone⟩ := frame
      have hne : Forest.used ((b, bdone) :: outer) ≠ 0 := by
        rw [Forest.used]
        omega
      rw [if_pos (.inl (loc_ne (j := 0) hne))]
      exact ⟨_, _, rfl, rfl, by decide, h.toBounded⟩

/-- The loop on the tokens and the rounds on the tree. -/
theorem parseLoop_spec (h0 : 0 ∉ text) (hs : s <:+ text) {z : Open R} (hz : z ≠ []) (h : Holds junk old o z) {fuel : Nat}
    (hfuel : s.length < fuel) :
    ∃ r o', parseLoop (text ++ 0 :: junk) len fuel ⟨o, innermost z, s ++ 0 :: junk⟩ = some (r, o') ∧
      Agrees junk old (rounds (text.length - len) old.length fuel z s) r o' := by
  induction fuel generalizing o z s with
  | zero => exact (Nat.not_lt_zero _ hfuel).elim
  | succ fuel ih =>
    have hafter := afterLoop_spec hz h (s ++ 0 :: junk)
    have hround := parseRound_spec len h0 hs hz h
    rw [rounds]
    cases s with
    | nil =>
      rw [List.length_nil, if_neg (Nat.not_lt_zero _)]
      exact hafter
    | cons c s =>
      rw [List.cons_append] at hafter hround ⊢
      rw [parseLoop]
      dsimp only
      by_cases hlive : text.length - len < (c :: s).length
      · rw [if_pos hlive, if_pos ⟨ne_zero_of_suffix h0 hs, (inside_cons hs).2 hlive⟩]
        revert hround
        cases hstep : round (text.length - len) old.length z (c :: s) with
        | stop res =>
          cases parseRound (text ++ 0 :: junk) len ⟨o, innermost z, c :: (s ++ 0 :: junk)⟩ with
          | ret r o' => exact fun hround => ⟨r, o', rfl, hround⟩
          | fault => exact False.elim
          | again => exact False.elim
        | again z' t =>
          obtain ⟨ht, hlt⟩ := round_spec hstep
          cases parseRound (text ++ 0 :: junk) len ⟨o, innermost z, c :: (s ++ 0 :: junk)⟩ with
          | again st =>
            obtain ⟨o', into, p⟩ := st
            rintro ⟨rfl, rfl, hz', hholds⟩
            exact ih (ht.trans hs) hz' hholds (by omega)
          | fault => exact False.elim
          | ret => exact False.elim
      · rw [if_neg hlive, if_neg fun hgo => hlive ((inside_cons hs).1 hgo.2)]
        exact hafter

/-! ### The parser -/

/-- The tokens are the nodes of the tree in preorder, and the array is as it was beyond them. -/
structure HoldsTree (junk : List UInt8) (old : List (Token R)) (o : LwjsonT R) (tree : Tree R) : Prop where
  laid : Forest.Laid loc (Label.cell junk) o.deref 0 none (.cons tree.1 tree.2 .nil)
  pos : o.nextFreeTokenPos = tree.2.size
  length : o.tokens.length = old.length
  rest : ∀ i, o.nextFreeTokenPos ≤ i → o.tokens[i]? = old[i]?
  parsed : o.parsed = true

omit [LwReal R] in
theorem Holds.tree {tree : Tree R} (h : Holds junk old o [tree]) : HoldsTree junk old { o with parsed := true } tree := by
  have hderef : ({ o with parsed := true } : LwjsonT R).deref = o.deref := by
    funext r
    cases r <;> rfl
  obtain ⟨-, hcell, hkids⟩ := h.opened
  have hused := h.used
  rw [Forest.used, Forest.used] at hused
  refine ⟨?_, ?_, h.length, fun i hi => h.rest (i + 1) (Nat.lt_succ_of_le hi), rfl⟩
  · rw [hderef]
    exact ⟨hcell, hkids, trivial⟩
  · dsimp only
    omega

/-- What the parser makes of what is known of the tree. -/
def Refines (junk : List UInt8) (old : List (Token R)) (res : Except Lwjsonr (Tree R)) (x : Option (Lwjsonr × LwjsonT R)) : Prop :=
  match res with
  | .error r => r ≠ .ok ∧ ∃ o, x = some (r, o) ∧ Bounded old o
  | .ok tree => ∃ o, x = some (.ok, o) ∧ HoldsTree junk old o tree

omit [LwReal R] in
theorem Agrees.refines {res : Except Lwjsonr (Tree R)} {r : Lwjsonr} (h : Agrees junk old res r o) :
    Refines junk old res (some (atRet r o)) := by
  cases res with
  | error e =>
    obtain ⟨rfl, hne, hbounded⟩ := h
    refine ⟨hne, o, ?_, hbounded⟩
    rw [atRet, if_neg hne]
  | ok tree =>
    obtain ⟨rfl, hholds⟩ := h
    exact ⟨_, rfl, hholds.tree⟩

private theorem parseFirst_append (h0 : 0 ∉ text) {c : UInt8} (hs : c :: s <:+ text)
    (hskip : skip (text.length - len) text = some (c :: s)) :
    parseFirst (text ++ 0 :: junk) len (text ++ 0 :: junk) =
      if c = ch '\x7b' ∨ c = ch '[' then
        orJson ((checkOpened (text.length - len) s (if c = ch '\x7b' then .object else .array)).map fun t =>
          (if c = ch '\x7b' then .object else .array, t ++ 0 :: junk))
      else .ret .errJson := by
  rw [parseFirst, skipBlank_append h0 (List.suffix_refl _), hskip, Option.map_some, orJson_some, Outcome.ok_bind, List.cons_append,
    read_cons, Outcome.ok_bind, List.tail_cons]
  by_cases hopen : c = ch '\x7b' ∨ c = ch '['
  · rw [if_pos hopen, if_pos hopen]
    dsimp only
    rw [prvCheckValidCharAfterOpenBracket_append h0 (suffix_of_cons hs)]
    cases checkOpened (text.length - len) s (if c = ch '\x7b' then LwjsonType.object else .array) with
    | none => rfl
    | some t => rfl
  · rw [if_neg hopen, if_neg hopen]

/-- **On every text that a zero byte ends, with every length and every array, the parser ends without a read or a write out of bounds, with the code that the tree of the text has; where that is `lwjsonOK` its tokens are the nodes of the tree in preorder.** -/
theorem lwjsonParseEx_refines (o : LwjsonT R) (h0 : 0 ∉ text) (hlen : len ≠ 0) (junk : List UInt8) :
    Refines junk o.tokens (parseText (text.length - len) o.tokens.length text)
      (lwjsonParseEx o (some (text ++ 0 :: junk)) len) := by
  have hbounded : Bounded o.tokens ({ o with parsed := false, nextFreeTokenPos := 0, firstToken := .zero } : LwjsonT R) :=
    ⟨rfl, Nat.zero_le _, rfl⟩
  rw [lwjsonParseEx, parseText]
  dsimp only
  rw [if_neg hlen]
  cases hskip : skip (text.length - len) text with
  | none =>
    rw [parseFirst, skipBlank_append h0 (List.suffix_refl _), hskip]
    exact ⟨by decide, _, rfl, hbounded⟩
  | some s =>
    obtain ⟨hs, -, c, s, rfl⟩ := skip_spec hskip
    rw [parseFirst_append h0 hs hskip]
    dsimp only
    by_cases hopen : c = ch '\x7b' ∨ c = ch '['
    · rw [if_pos hopen, if_pos hopen]
      have htype : IsContainer (if c = ch '\x7b' then .object else .array) := by split <;> decide
      generalize (if c = ch '\x7b' then LwjsonType.object else .array) = type at htype ⊢
      cases hcheck : checkOpened (text.length - len) s type with
      | none => exact ⟨by decide, _, rfl, hbounded⟩
      | some t =>
        have ht := (checkOpened_suffix hcheck).trans (suffix_of_cons hs)
        have hle := ht.length_le
        have hfuel : t.length < (text ++ 0 :: junk).length + 1 := by
          rw [List.length_append]
          omega
        have hholds : Holds junk o.tokens
            ({ o with parsed := false, nextFreeTokenPos := 0, firstToken := { Token.zero with type } } : LwjsonT R)
            [(⟨none, type, .zero⟩, .nil)] := by
          refine ⟨⟨rfl, Nat.zero_le _, rfl⟩, ⟨trivial, rfl, trivial⟩, rfl, ?_, List.forall_mem_singleton.2 ⟨htype, rfl⟩⟩
          intro i hi
          obtain ⟨i, rfl⟩ := Nat.exists_eq_succ_of_ne_zero (Nat.ne_of_gt hi)
          rfl
        obtain ⟨r, o', hparse, hagrees⟩ := parseLoop_spec h0 ht (List.cons_ne_nil _ _) hholds hfuel
        rw [Option.map_some, orJson_some]
        dsimp only
        rw [rounds_fuel hfuel (Nat.lt_succ_of_le hle)] at hagrees
        exact hparse ▸ hagrees.refines
    · rw [if_neg hopen, if_neg hopen]
      exact ⟨by decide, _, rfl, hbounded⟩

theorem strlen_append (h0 : 0 ∉ text) : strlen (text ++ 0 :: junk) = some text.length := by
  induction text with
  | nil => rfl
  | cons c text ih =>
    rw [List.mem_cons, not_or] at h0
    rw [List.cons_append, strlen, if_neg (Ne.symm h0.1), ih h0.2]
    rfl

end Vedruino.Lwjson
