import Vedruino.Lwjson.Complete
import Vedruino.Lwjson.Refine

/-!
# Every text that is parsed is in the language

What the open nodes of the tree still ask of the text, and that the rounds of the parser get to their end only where the text gives it. Together with the completeness of the rounds this says which texts the parser takes.
-/

namespace Vedruino.Lwjson

variable {R : Type} [LwReal R] {cap : Nat} {s t : List UInt8}

/-- The text completes the open nodes to the tree; the labels are those of the characters. -/
def Completes : Label R → Forest (Label R) → Open R → List UInt8 → Tree R → Prop
  | l, done, [], s, tree =>
    (∃ s' b f, s = s' ++ b ∧ Blank b ∧ Items l.type true true s' f ∧ tree = (l, done.append f)) ∨
      ∃ f, Items l.type false true s f ∧ tree = ({ l with name := none }, done.append f)
  | l, done, (a, adone) :: outer, s, tree =>
    ∃ s' t f, s = s' ++ t ∧ Items l.type true true s' f ∧ Completes a (adone.append (.cons l (done.append f) .nil)) outer t tree

def trimOpen (z : Open R) : Open R := z.map fun frame => (frame.1.trim, frame.2.map Label.trim)

private theorem head_append_left {s' : List UInt8} (h : s' ≠ []) (t : List UInt8) : s'.head? = (s' ++ t).head? := by
  obtain ⟨c, v, rfl⟩ := List.exists_cons_of_ne_nil h
  rfl

/-- The contents of the innermost node may begin earlier. -/
theorem Completes.append {l : Label R} {done done' : Forest (Label R)} {outer : Open R} {tree : Tree R} {p : List UInt8}
    (h : Completes l done' outer s tree)
    (hitems : ∀ {closed s' f}, s'.head? = s.head? → Items l.type closed true s' f →
      ∃ g, Items l.type closed true (p ++ s') g ∧ done.append g = done'.append f) : Completes l done outer (p ++ s) tree := by
  cases outer with
  | nil =>
    rcases h with ⟨s', b, f, rfl, hb, h, rfl⟩ | ⟨f, h, rfl⟩
    · obtain ⟨g, hg, hdone⟩ := hitems (head_append_left h.ne_nil b) h
      exact .inl ⟨p ++ s', b, g, (List.append_assoc _ _ _).symm, hb, hg, by rw [hdone]⟩
    · obtain ⟨g, hg, hdone⟩ := hitems rfl h
      exact .inr ⟨g, hg, by rw [hdone]⟩
  | cons frame outer =>
    obtain ⟨a, adone⟩ := frame
    obtain ⟨s', t, f, rfl, h, hrest⟩ := h
    obtain ⟨g, hg, hdone⟩ := hitems (head_append_left h.ne_nil t) h
    exact ⟨p ++ s', t, g, (List.append_assoc _ _ _).symm, hg, by rw [hdone]; exact hrest⟩

theorem Completes.comma {l : Label R} {done : Forest (Label R)} {outer : Open R} {tree : Tree R} {b : List UInt8} (hb : Blank b)
    (h : Completes l done outer s tree) : Completes l done outer (b ++ ch ',' :: s) tree := by
  have hcomma : Completes l done outer (b ++ [ch ','] ++ s) tree := by
    apply h.append
    intro closed s' f _ hitems
    refine ⟨f, ?_, rfl⟩
    rw [List.append_assoc, List.singleton_append]
    exact .comma hb hitems
  rwa [List.append_assoc, List.singleton_append] at hcomma

theorem blank_append {b b' : List UInt8} (hb : Blank b) (hb' : Blank b') : Blank (b ++ b') := List.forall_mem_append.2 ⟨hb, hb'⟩

/-- Where a child begins stands no closing bracket. -/
theorem head_ne_bracket {type : LwjsonType} {b p : List UInt8} {n : Option (List UInt8 × Nat)} (hb : Blank b)
    (hname : ChildName type p n) {c : UInt8} (hc : StartsValue c) (t : List UInt8) {d : UInt8} (hd : d = ch ']' ∨ d = ch '\x7d') :
    (b ++ (p ++ c :: t)).head? ≠ some d := by
  obtain ⟨e, v, heq, -, hstart⟩ := hname.begins hc t
  have hnot : isBlank d = false ∧ ¬ StartsValue d ∧ d ≠ ch '"' := by rcases hd with rfl | rfl <;> decide
  intro hhead
  rw [heq] at hhead
  cases b with
  | nil =>
    cases hhead
    rcases hstart with ⟨-, hquote⟩ | ⟨-, hvalue⟩
    · exact hnot.2.2 hquote
    · exact hnot.2.1 hvalue
  | cons f b =>
    cases hhead
    exact Bool.false_ne_true (hnot.1.symm.trans (hb d List.mem_cons_self))

/-- After a scalar there is a comma or the closing bracket. -/
theorem Items.after_scalar {type : LwjsonType} {closed : Bool} {f : Forest (Label R)} {b : List UInt8} (hb : Blank b)
    (h : Items type closed true s f) {d : UInt8} (hd : d = ch ']' ∨ d = ch '\x7d') (hs : s.head? = some d) :
    Items type closed false (b ++ s) f := by
  cases h with
  | close hb' =>
    rw [← List.append_assoc]
    exact .close (blank_append hb hb')
  | cut => cases hs
  | comma hb' h =>
    rw [← List.append_assoc]
    exact .comma (blank_append hb hb') h
  | scalar hb' hname hu h =>
    obtain ⟨c, v, rfl, hc, -⟩ := hu.startsValue
    exact (head_ne_bracket hb' hname hc _ hd hs).elim
  | container hb' hname _ _ _ _ => exact (head_ne_bracket hb' hname (startsValue_opener _).1 _ hd hs).elim

theorem Completes.scalar {l a : Label R} {done : Forest (Label R)} {outer : Open R} {tree : Tree R} {b p cs b' : List UInt8}
    (hb : Blank b) (hname : ChildName l.type p a.name) (ha : Scalar cs a.type a.u) (hb' : Blank b')
    (h : Completes l (done.append (.cons a .nil .nil)) outer s tree) {d : UInt8} (hd : d = ch ']' ∨ d = ch '\x7d')
    (hs : s.head? = some d) : Completes l done outer (b ++ (p ++ (cs ++ b')) ++ s) tree := by
  apply h.append
  intro closed s' f hhead hitems
  refine ⟨.cons a .nil f, ?_, by rw [Forest.append_assoc]; rfl⟩
  simp only [List.append_assoc]
  exact .scalar hb hname ha (hitems.after_scalar hb' hd (hhead.trans hs))

theorem Completes.scalar_comma {l a : Label R} {done : Forest (Label R)} {outer : Open R} {tree : Tree R} {b p cs b' : List UInt8}
    (hb : Blank b) (hname : ChildName l.type p a.name) (ha : Scalar cs a.type a.u) (hb' : Blank b')
    (h : Completes l (done.append (.cons a .nil .nil)) outer s tree) :
    Completes l done outer (b ++ (p ++ (cs ++ (b' ++ [ch ',']))) ++ s) tree := by
  apply h.append
  intro closed s' f _ hitems
  refine ⟨.cons a .nil f, ?_, by rw [Forest.append_assoc]; rfl⟩
  simp only [List.append_assoc, List.singleton_append]
  exact .scalar hb hname ha (.comma hb' hitems)

omit [LwReal R] in
theorem Opens.of_append (h : Opens (s ++ t)) : Opens s := by
  intro hcomma
  apply h
  rw [List.dropWhile_append, if_neg]
  · rw [List.head?_append, hcomma]
    rfl
  · intro hempty
    rw [List.isEmpty_iff.1 hempty] at hcomma
    cases hcomma

theorem Completes.container {l a : Label R} {done : Forest (Label R)} {outer : Open R} {tree : Tree R} {b p : List UInt8}
    (hb : Blank b) (hname : ChildName l.type p a.name) (htype : IsContainer a.type) (hu : a.u = .zero) (hopens : Opens s)
    (h : Completes a .nil ((l, done) :: outer) s tree) : Completes l done outer (b ++ (p ++ opener a.type :: s)) tree := by
  obtain ⟨s', t, f, rfl, hinner, hrest⟩ := h
  have hsplit : b ++ (p ++ opener a.type :: (s' ++ t)) = b ++ (p ++ opener a.type :: s') ++ t := by
    simp only [List.append_assoc, List.cons_append]
  rw [hsplit]
  apply hrest.append
  intro closed v g _ hitems
  refine ⟨.cons a f g, ?_, by rw [Forest.append_assoc]; rfl⟩
  simp only [List.append_assoc, List.cons_append]
  have hitem := Items.container hb hname htype hopens.of_append hinner hitems
  rw [← hu] at hitem
  exact hitem

theorem Items.blank {type : LwjsonType} {closed : Bool} {f : Forest (Label R)} {b : List UInt8} (hb : Blank b)
    (h : Items type closed true s f) (hs : s ≠ []) : Items type closed true (b ++ s) f := by
  cases h with
  | close hb' =>
    rw [← List.append_assoc]
    exact .close (blank_append hb hb')
  | cut => exact (hs rfl).elim
  | comma hb' h =>
    rw [← List.append_assoc]
    exact .comma (blank_append hb hb') h
  | scalar hb' hname hu h =>
    rw [← List.append_assoc]
    exact .scalar (blank_append hb hb') hname hu h
  | container hb' hname htype hopens hinner h =>
    rw [← List.append_assoc]
    exact .container (blank_append hb hb') hname htype hopens hinner h

theorem Completes.blank {l : Label R} {done : Forest (Label R)} {outer : Open R} {tree : Tree R} {b : List UInt8} (hb : Blank b)
    (hs : s ≠ []) (h : Completes l done outer s tree) : Completes l done outer (b ++ s) tree := by
  apply h.append
  intro closed s' f hhead hitems
  refine ⟨f, hitems.blank hb ?_, rfl⟩
  rintro rfl
  obtain ⟨c, v, rfl⟩ := List.exists_cons_of_ne_nil hs
  cases hhead

/-! ### Rounds -/

omit [LwReal R] in
theorem opens_of_checkOpened {type : LwjsonType} (htype : IsContainer type) (h : checkOpened 0 s type = some t) :
    ∃ b, Blank b ∧ s = b ++ t ∧ t ≠ [] ∧ Opens s := by
  rw [checkOpened] at h
  cases hskip : skip 0 s with
  | none =>
    rw [hskip] at h
    cases h
  | some v =>
    obtain ⟨b, hb, rfl, c, v, rfl, hc⟩ := append_of_skip hskip
    rw [hskip] at h
    dsimp only at h
    split at h
    · cases h
    next hcheck =>
      cases h
      refine ⟨b, hb, rfl, List.cons_ne_nil _ _, ?_⟩
      rw [Opens, List.dropWhile_append_of_pos hb, List.dropWhile_cons_of_neg (by rw [hc]; exact Bool.false_ne_true)]
      rintro ⟨rfl⟩
      apply hcheck
      rcases htype with rfl | rfl
      · exact .inl ⟨rfl, by decide⟩
      · exact .inr ⟨rfl, by decide⟩

/-- What a leaf is made of, and what follows it. -/
theorem leaf_sound {z z' : Open R} {n : Option (List UInt8 × Nat)} (hs : Begins s) (h : leaf 0 z n s = some (z', t)) :
    ∃ a cs b, a.name = n ∧ z' = attach z a .nil ∧ Scalar cs a.type a.u.trim ∧ Blank b ∧
      (s = cs ++ (b ++ [ch ',']) ++ t ∨ s = cs ++ b ++ t ∧ ∃ d, (d = ch ']' ∨ d = ch '\x7d') ∧ t.head? = some d) := by
  rw [leaf, Option.bind_eq_some_iff] at h
  obtain ⟨⟨u, type, v⟩, hscalar, h⟩ := h
  obtain ⟨cs, hcs, rfl⟩ := scalar_of_scalar hs hscalar
  dsimp only at h
  cases hskip : skip 0 u with
  | none =>
    rw [hskip] at h
    cases h
  | some w =>
    obtain ⟨b, hb, rfl, d, w, rfl, -⟩ := append_of_skip hskip
    rw [hskip] at h
    dsimp only at h
    split at h
    next hcomma =>
      cases h
      subst hcomma
      refine ⟨⟨n, type, v⟩, cs, b, rfl, rfl, hcs, hb, .inl ?_⟩
      simp only [List.append_assoc, List.singleton_append]
    split at h
    next hclose =>
      cases h
      exact ⟨⟨n, type, v⟩, cs, b, rfl, rfl, hcs, hb, .inr ⟨(List.append_assoc _ _ _).symm, d, hclose, rfl⟩⟩
    · cases h

/-- What a child is made of. -/
theorem element_sound {z z' : Open R} {type : LwjsonType} (htype : IsContainer type) (hs : Begins s)
    (h : element 0 z type s = some (z', t)) :
    ∃ p a, ChildName type p (a.trim.name) ∧
      ((∃ inner, s = p ++ opener a.type :: inner ∧ z' = (a, .nil) :: z ∧ IsContainer a.type ∧ a.u = .zero ∧
          checkOpened 0 inner a.type = some t) ∨
        ∃ cs b, z' = attach z a .nil ∧ Scalar cs a.type a.u.trim ∧ Blank b ∧
          (s = p ++ (cs ++ (b ++ [ch ','])) ++ t ∨
            s = p ++ (cs ++ b) ++ t ∧ ∃ d, (d = ch ']' ∨ d = ch '\x7d') ∧ t.head? = some d)) := by
  rw [element, Option.bind_eq_some_iff] at h
  obtain ⟨⟨u, n⟩, hchild, h⟩ := h
  obtain ⟨p, hp, rfl, hu⟩ := append_of_childName htype hs hchild
  obtain ⟨c, u, rfl, hc⟩ := hu
  dsimp only at h
  by_cases hopen : c = ch '\x7b' ∨ c = ch '['
  · rw [if_pos hopen, Option.map_eq_some_iff] at h
    obtain ⟨v, hcheck, heq⟩ := h
    cases heq
    have hctype : IsContainer (if c = ch '\x7b' then .object else .array) := by split <;> decide
    have hopener : c = opener (if c = ch '\x7b' then .object else .array) := by rcases hopen with rfl | rfl <;> rfl
    refine ⟨p, ⟨n, if c = ch '\x7b' then .object else .array, .zero⟩, hp, .inl ⟨u, ?_, rfl, hctype, rfl, hcheck⟩⟩
    dsimp only
    rw [← hopener]
  · rw [if_neg hopen] at h
    obtain ⟨a, cs, b, rfl, rfl, hcs, hb, hsplit⟩ := leaf_sound ⟨c, u, rfl, hc⟩ h
    refine ⟨p, a, hp, .inr ⟨cs, b, rfl, hcs, hb, ?_⟩⟩
    rcases hsplit with hsplit | ⟨hsplit, hend⟩
    · rw [hsplit]
      exact .inl (List.append_assoc _ _ _).symm
    · rw [hsplit]
      exact .inr ⟨(List.append_assoc _ _ _).symm, hend⟩

/-- The text that the rounds have still to read completes the open nodes. -/
theorem completes_of_rounds {fuel : Nat} {l : Label R} {done : Forest (Label R)} {outer : Open R} {tree : Tree R}
    (htypes : ∀ frame ∈ (l, done) :: outer, IsContainer frame.1.type)
    (h : rounds 0 cap fuel ((l, done) :: outer) s = .ok tree) :
    Completes l.trim (done.map Label.trim) (trimOpen outer) s (trimTree tree) := by
  induction fuel generalizing l done outer s with
  | zero => cases h
  | succ fuel ih =>
    obtain ⟨hl, houter⟩ := List.forall_mem_cons.1 htypes
    rw [rounds] at h
    by_cases hlive : 0 < s.length
    · rw [if_pos hlive, round] at h
      cases hskip : skip 0 s with
      | none =>
        rw [hskip] at h
        cases h
      | some v =>
        obtain ⟨b, hb, rfl, c, v, rfl, hc⟩ := append_of_skip hskip
        rw [hskip] at h
        dsimp only at h
        by_cases hcomma : c = ch ','
        · rw [if_pos hcomma] at h
          rw [hcomma]
          exact (ih htypes h).comma hb
        rw [if_neg hcomma] at h
        by_cases hclose : c = closer l.type
        · rw [if_pos hclose] at h
          subst hclose
          cases outer with
          | nil =>
            dsimp only at h
            split at h
            next hend =>
              cases h
              refine .inl ⟨b ++ [closer l.type], v, .nil, ?_, blank_of_blanks hend, .close hb, ?_⟩
              · rw [List.append_assoc, List.singleton_append]
              · rw [Forest.append_nil]
                rfl
            · cases h
          | cons frame outer =>
            obtain ⟨a, adone⟩ := frame
            have htypes' : ∀ frame ∈ (a, adone.append (.cons l done .nil)) :: outer, IsContainer frame.1.type :=
              List.forall_mem_cons.2 (List.forall_mem_cons.1 houter)
            have hrest := ih htypes' h
            rw [Forest.map_append] at hrest
            refine ⟨b ++ [closer l.type], v, .nil, ?_, .close hb, ?_⟩
            · rw [List.append_assoc, List.singleton_append]
            · rw [Forest.append_nil]
              exact hrest
        rw [if_neg hclose] at h
        by_cases hroom : Forest.used ((l, done) :: outer) ≤ cap
        · rw [if_pos hroom] at h
          cases helement : element 0 ((l, done) :: outer) l.type (c :: v) with
          | none =>
            rw [helement] at h
            cases h
          | some r =>
            obtain ⟨z, t⟩ := r
            rw [helement] at h
            dsimp only at h
            obtain ⟨p, a, hp, ⟨inner, hs, rfl, hatype, hu, hcheck⟩ | ⟨cs, b', rfl, hcs, hb', hs⟩⟩ := element_sound hl ⟨c, v, rfl, hc⟩ helement
            · obtain ⟨b', hb', rfl, ht, hopens⟩ := opens_of_checkOpened hatype hcheck
              rw [hs]
              have hrest := (ih (List.forall_mem_cons.2 ⟨hatype, htypes⟩) h).blank hb' ht
              exact hrest.container (a := a.trim) hb hp hatype (by rw [Label.trim, hu]; rfl) hopens
            · have htypes' : ∀ frame ∈ (l, done.append (.cons a .nil .nil)) :: outer, IsContainer frame.1.type :=
                List.forall_mem_cons.2 ⟨hl, houter⟩
              have hrest := ih htypes' h
              rw [Forest.map_append] at hrest
              rcases hs with hs | ⟨hs, d, hd, hhead⟩
              · rw [hs, ← List.append_assoc]
                exact hrest.scalar_comma hb hp hcs hb'
              · rw [hs, ← List.append_assoc]
                exact hrest.scalar hb hp hcs hb' hd hhead
        · rw [if_neg hroom] at h
          cases h
    · rw [if_neg hlive] at h
      obtain rfl := List.eq_nil_of_length_eq_zero (Nat.eq_zero_of_not_pos hlive)
      cases outer with
      | nil =>
        cases h
        exact .inr ⟨.nil, .cut, by rw [Forest.append_nil]; rfl⟩
      | cons => cases h

/-! ### The size of the array -/

omit [LwReal R] in
theorem used_attach (z : Open R) (l : Label R) (kids : Forest (Label R)) (hz : z ≠ []) :
    Forest.used (attach z l kids) = Forest.used z + kids.size + 1 := by
  cases z with
  | nil => exact (hz rfl).elim
  | cons frame outer =>
    obtain ⟨a, done⟩ := frame
    rw [attach, Forest.used, Forest.used, Forest.size_append, Forest.size, Forest.size]
    omega

private theorem used_round {out : Nat} {z z' : Open R} (h : round out cap z s = .again z' t) (hz : Forest.used z ≤ cap + 1) :
    Forest.used z' ≤ cap + 1 := by
  rcases round_again h with rfl | ⟨l, done, frame, outer, rfl, rfl⟩ | ⟨hroom, ⟨l, -, -, rfl⟩ | ⟨l, -, rfl⟩⟩
  · exact hz
  · rw [Forest.used] at hz
    rw [used_attach _ _ _ (List.cons_ne_nil _ _)]
    omega
  · rw [Forest.used, Forest.size]
    omega
  · cases z with
    | nil => exact hz
    | cons frame outer =>
      rw [used_attach _ _ _ (List.cons_ne_nil _ _), Forest.size]
      omega

/-- Only the bracket of the first token ends the rounds with a tree. -/
theorem round_ok {out : Nat} {z : Open R} {tree : Tree R} (h : round out cap z s = .stop (.ok tree)) : z = [tree] := by
  cases z with
  | nil => cases h
  | cons frame outer =>
    obtain ⟨l, done⟩ := frame
    rw [round] at h
    split at h
    · cases h
    · cases h
    split at h
    · cases h
    split at h
    · cases outer with
      | nil =>
        dsimp only at h
        split at h
        · cases h
          rfl
        · cases h
      | cons => cases h
    split at h
    · split at h
      · cases h
      · cases h
    · cases h

omit [LwReal R] in
theorem atEnd_ok {z : Open R} {tree : Tree R} (h : atEnd z = .ok tree) : ∃ l, z = [(l, tree.2)] := by
  cases z with
  | nil => cases h
  | cons frame outer =>
    cases outer with
    | nil =>
      cases h
      exact ⟨frame.1, rfl⟩
    | cons => cases h

private theorem size_of_rounds {out fuel : Nat} {z : Open R} {tree : Tree R} (h : rounds out cap fuel z s = .ok tree)
    (hz : Forest.used z ≤ cap + 1) : tree.2.size ≤ cap := by
  have hroot {l : Label R} {done : Forest (Label R)} (h : Forest.used [(l, done)] ≤ cap + 1) : done.size ≤ cap := by
    rw [Forest.used, Forest.used] at h
    omega
  induction fuel generalizing z s with
  | zero => cases h
  | succ fuel ih =>
    rw [rounds] at h
    split at h
    · cases hround : round out cap z s with
      | again z' t =>
        rw [hround] at h
        exact ih h (used_round hround hz)
      | stop res =>
        rw [hround] at h
        obtain rfl : res = .ok tree := h
        obtain rfl := round_ok hround
        exact hroot hz
    · obtain ⟨l, rfl⟩ := atEnd_ok h
      exact hroot hz

/-- A text that has a tree is in the language, and its tree has room in the array. -/
theorem document_of_parseText {tree : Tree R} (h : parseText 0 cap s = .ok tree) :
    Document s (trimTree tree) ∧ tree.2.size ≤ cap := by
  rw [parseText] at h
  cases hskip : skip 0 s with
  | none =>
    rw [hskip] at h
    cases h
  | some v =>
    obtain ⟨b, hb, rfl, c, v, rfl, hc⟩ := append_of_skip hskip
    rw [hskip] at h
    dsimp only at h
    split at h
    next hopen =>
      have htype : IsContainer (if c = ch '\x7b' then LwjsonType.object else .array) := by split <;> decide
      have hopener : c = opener (if c = ch '\x7b' then .object else .array) := by rcases hopen with rfl | rfl <;> rfl
      cases hcheck : checkOpened 0 v (if c = ch '\x7b' then .object else .array) with
      | none =>
        rw [hcheck] at h
        cases h
      | some t =>
        rw [hcheck] at h
        dsimp only at h
        obtain ⟨b', hb', rfl, ht, hopens⟩ := opens_of_checkOpened htype hcheck
        refine ⟨?_, size_of_rounds h ?_⟩
        · have hcomplete := (completes_of_rounds (List.forall_mem_singleton.2 htype) h).blank hb' ht
          rw [hopener]
          rcases hcomplete with ⟨s', b'', f, hs, hb'', hitems, htree⟩ | ⟨f, hitems, htree⟩
          · rw [htree, hs]
            rw [hs] at hopens
            exact .closed hb hb'' htype hopens.of_append hitems
          · rw [htree]
            exact .cut hb htype (List.append_ne_nil_of_right_ne_nil _ ht) hopens hitems
        · rw [Forest.used, Forest.used, Forest.size]
          omega
    · cases h

end Vedruino.Lwjson
