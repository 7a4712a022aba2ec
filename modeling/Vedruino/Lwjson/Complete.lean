import Vedruino.Lwjson.Grammar

/-!
# Every text of the language is parsed

The rounds of the parser over a text of the language, with room in the array for its tree, build that tree.
-/

namespace Vedruino.Lwjson

variable {R : Type} [LwReal R] {cap : Nat} {z z' : Open R} {s t : List UInt8}

/-! ### Rounds -/

/-- All rounds from there on. -/
def run (cap : Nat) (z : Open R) (s : List UInt8) : Except Lwjsonr (Tree R) := rounds 0 cap (s.length + 1) z s

theorem run_again (h : round 0 cap z s = .again z' t) : run cap z s = run cap z' t := by
  have hlt := (round_spec h).2
  rw [run, rounds, if_pos (Nat.zero_lt_of_lt hlt), h]
  exact rounds_fuel (by omega) (by omega)

theorem run_stop {res : Except Lwjsonr (Tree R)} (hs : s ≠ []) (h : round 0 cap z s = .stop res) : run cap z s = res := by
  rw [run, rounds, if_pos (List.length_pos_iff.2 hs), h]

theorem run_nil : run cap z [] = atEnd z := rfl

/-- A round reads only what stands after blanks. -/
theorem round_congr (h : skip 0 s = skip 0 t) : round 0 cap z s = round 0 cap z t := by
  cases z with
  | nil => rfl
  | cons frame outer =>
    obtain ⟨l, done⟩ := frame
    rw [round, round, h]

theorem run_congr (hs : s ≠ []) (ht : t ≠ []) (h : skip 0 s = skip 0 t) : run cap z s = run cap z t := by
  cases hround : round 0 cap z s with
  | stop res => rw [run_stop hs hround, run_stop ht ((round_congr h).symm.trans hround)]
  | again z' u => rw [run_again hround, run_again ((round_congr h).symm.trans hround)]

theorem run_blank {b : List UInt8} (hb : Blank b) (hs : s ≠ []) : run cap z (b ++ s) = run cap z s :=
  run_congr (List.append_ne_nil_of_right_ne_nil _ hs) hs (skip_append hb s)

variable {l : Label R} {done : Forest (Label R)} {outer : Open R}

theorem run_comma (s : List UInt8) : run cap ((l, done) :: outer) (ch ',' :: s) = run cap ((l, done) :: outer) s := by
  apply run_again
  rw [round, skip_begins ⟨_, _, rfl, by decide⟩]
  exact if_pos rfl

theorem closer_cases (type : LwjsonType) : closer type = ch '\x7d' ∨ closer type = ch ']' := by
  rw [closer]
  split
  · exact .inl rfl
  · exact .inr rfl

theorem closer_spec (type : LwjsonType) : isBlank (closer type) = false ∧ closer type ≠ ch ',' := by
  rcases closer_cases type with h | h <;> rw [h] <;> decide

theorem run_close (frame : Label R × Forest (Label R)) (s : List UInt8) :
    run cap ((l, done) :: frame :: outer) (closer l.type :: s) = run cap (attach (frame :: outer) l done) s := by
  obtain ⟨hblank, hcomma⟩ := closer_spec l.type
  apply run_again
  rw [round, skip_begins ⟨_, _, rfl, hblank⟩]
  dsimp only
  rw [if_neg hcomma, if_pos rfl]

theorem run_close_root {b : List UInt8} (hb : Blank b) : run cap [(l, done)] (closer l.type :: b) = .ok (l, done) := by
  obtain ⟨hblank, hcomma⟩ := closer_spec l.type
  have hend : blanks 0 b = [] := by
    have hblanks := blanks_append hb []
    rw [List.append_nil] at hblanks
    exact hblanks
  apply run_stop (List.cons_ne_nil _ _)
  rw [round, skip_begins ⟨_, _, rfl, hblank⟩]
  dsimp only
  rw [if_neg hcomma, if_pos rfl, hend]
  exact congrArg Step.stop (if_pos (Nat.le_refl _))

/-- A child begins with a character that ends nothing. -/
def StartsChild (type : LwjsonType) (s : List UInt8) : Prop :=
  ∃ c t, s = c :: t ∧ isBlank c = false ∧ c ≠ ch ',' ∧ c ≠ closer type

theorem run_element (hs : StartsChild l.type s) (hroom : Forest.used ((l, done) :: outer) ≤ cap)
    (h : element 0 ((l, done) :: outer) l.type s = some (z, t)) : run cap ((l, done) :: outer) s = run cap z t := by
  obtain ⟨c, u, rfl, hblank, hcomma, hcloser⟩ := hs
  apply run_again
  rw [round, skip_begins ⟨_, _, rfl, hblank⟩]
  dsimp only
  rw [if_neg hcomma, if_neg hcloser, if_pos hroom, h]

/-! ### Children -/

/-- The characters that a value begins with. -/
def StartsValue (c : UInt8) : Prop :=
  [ch '"', ch '[', ch '\x7b', ch '-', ch 't', ch 'n', ch 'f'].contains c = true ∨ isDigit c = true

theorem StartsValue.ne {c d : UInt8} (h : StartsValue c) (hd : ¬ StartsValue d) : c ≠ d := fun heq => hd (heq ▸ h)

instance (c : UInt8) : Decidable (StartsValue c) := inferInstanceAs (Decidable (_ ∨ _))

theorem StartsValue.not_blank {c : UInt8} (h : StartsValue c) : isBlank c = false := by
  cases hblank : isBlank c with
  | false => rfl
  | true =>
    simp only [isBlank, List.contains_iff_mem, List.mem_cons, List.not_mem_nil, or_false] at hblank
    rcases hblank with rfl | rfl | rfl | rfl | rfl <;> exact absurd h (by decide)

/-- What stands before a child and the child begin with a character that a child may begin with. -/
theorem startsChild {type : LwjsonType} {p : List UInt8} {n : Option (List UInt8 × Nat)} (hname : ChildName type p n) {c : UInt8}
    (hc : StartsValue c) (t : List UInt8) : StartsChild type (p ++ c :: t) := by
  cases hname with
  | array => exact ⟨c, t, rfl, hc.not_blank, hc.ne (by decide), hc.ne (by decide)⟩
  | object => exact ⟨_, _, rfl, by decide, by decide, by decide⟩

theorem Scalar.startsValue {cs : List UInt8} {type : LwjsonType} {u : U R} (h : Scalar cs type u) :
    ∃ c s, cs = c :: s ∧ StartsValue c ∧ ¬ (c = ch '\x7b' ∨ c = ch '[') := by
  obtain ⟨c, s, rfl, hc⟩ := h.begins
  refine ⟨c, s, rfl, ?_, ?_⟩
  · rcases hc with hc | hc
    · left
      simp only [List.contains_iff_mem, List.mem_cons, List.not_mem_nil, or_false] at hc ⊢
      tauto
    · exact .inr hc
  · rintro (rfl | rfl)
    · revert hc
      decide
    · revert hc
      decide

theorem startsValue_opener (type : LwjsonType) : StartsValue (opener type) ∧ (opener type = ch '\x7b' ∨ opener type = ch '[') := by
  rw [opener]
  split <;> decide

/-- What follows a scalar is not part of it. -/
theorem stops_of_blank {b : List UInt8} (hb : Blank b) {c : UInt8} (hc : c = ch ',' ∨ c = ch ']' ∨ c = ch '\x7d') (t : List UInt8) :
    Stops (b ++ c :: t) := by
  intro d hd
  cases b with
  | nil =>
    cases hd
    rcases hc with rfl | rfl | rfl <;> decide
  | cons e b =>
    cases hd
    have hblank := hb d List.mem_cons_self
    simp only [isBlank, List.contains_iff_mem, List.mem_cons, List.not_mem_nil, or_false] at hblank
    rcases hblank with rfl | rfl | rfl | rfl | rfl <;> decide

theorem run_scalar {p cs b : List UInt8} {n : Option (List UInt8 × Nat)} {type : LwjsonType} {u : U R}
    (hname : ChildName l.type p n) (hu : Scalar cs type u) (hb : Blank b) {c : UInt8} (hc : c = ch ',' ∨ c = ch ']' ∨ c = ch '\x7d')
    (hroom : Forest.used ((l, done) :: outer) ≤ cap) (t : List UInt8) :
    ∃ a : Label R, a.trim = ⟨n, type, u⟩ ∧ run cap ((l, done) :: outer) (p ++ (cs ++ (b ++ c :: t))) =
      run cap ((l, done.append (.cons a .nil .nil)) :: outer) (if c = ch ',' then t else c :: t) := by
  obtain ⟨d, v, rfl, hd, hopen⟩ := hu.startsValue
  have hbegins : Begins (d :: v ++ (b ++ c :: t)) := ⟨d, _, rfl, hd.not_blank⟩
  obtain ⟨n', hchild, hn⟩ := childName_append hname hbegins
  obtain ⟨u', hscalar, hu'⟩ := scalar_append hu (stops_of_blank hb hc t)
  have hblank : isBlank c = false := by rcases hc with rfl | rfl | rfl <;> decide
  refine ⟨⟨n', type, u'⟩, ?_, ?_⟩
  · rw [Label.trim, hn, hu']
  · have hstarts := startsChild hname hd (v ++ (b ++ c :: t))
    rw [List.cons_append] at hchild hscalar ⊢
    apply run_element hstarts hroom
    rw [element, hchild, Option.bind_some]
    dsimp only
    rw [if_neg hopen, leaf, hscalar, Option.bind_some]
    dsimp only
    rw [skip_append hb, skip_begins ⟨c, t, rfl, hblank⟩]
    dsimp only
    by_cases hcomma : c = ch ','
    · rw [if_pos hcomma, if_pos hcomma]
      rfl
    · rw [if_neg hcomma, if_pos (hc.resolve_left hcomma), if_neg hcomma]
      rfl

omit [LwReal R] in
theorem ChildName.begins {type : LwjsonType} {p : List UInt8} {n : Option (List UInt8 × Nat)} (h : ChildName type p n) {c : UInt8}
    (hc : StartsValue c) (t : List UInt8) :
    ∃ d v, p ++ c :: t = d :: v ∧ isBlank d = false ∧ ((type = .object ∧ d = ch '"') ∨ (type = .array ∧ StartsValue d)) := by
  cases h with
  | array => exact ⟨c, t, rfl, hc.not_blank, .inr ⟨rfl, hc⟩⟩
  | object => exact ⟨_, _, rfl, by decide, .inl ⟨rfl, rfl⟩⟩

/-- The check of the character after an opening bracket. -/
theorem checkOpened_items {type : LwjsonType} {closed : Bool} {f : Forest (Label R)} (htype : IsContainer type)
    (h : Items type closed true s f) (hne : s ≠ []) (hopens : Opens s) (t : List UInt8) :
    ∃ b v, Blank b ∧ s ++ t = b ++ v ∧ checkOpened 0 (s ++ t) type = some v := by
  have hcheck {b v : List UInt8} {d : UInt8} (hb : Blank b) (hd : isBlank d = false)
      (hstart : d = closer type ∨ (type = .object ∧ d = ch '"') ∨ (type = .array ∧ StartsValue d)) :
      checkOpened 0 (b ++ d :: v) type = some (d :: v) := by
    rw [checkOpened, skip_append hb, skip_begins ⟨d, v, rfl, hd⟩]
    dsimp only
    rw [if_neg]
    rintro (⟨rfl, hnot⟩ | ⟨rfl, hnot⟩)
    · rcases hstart with heq | ⟨-, heq⟩ | ⟨harray, -⟩
      · exact hnot (.inr heq)
      · exact hnot (.inl heq)
      · cases harray
    · rcases hstart with rfl | ⟨hobject, -⟩ | ⟨-, hd⟩
      · exact hnot (by decide)
      · cases hobject
      · apply hnot
        rcases hd with hd | hd
        · left
          simp only [List.contains_iff_mem, List.mem_cons, List.not_mem_nil, or_false] at hd ⊢
          tauto
        · exact .inr hd
  cases h with
  | @close _ _ b hb =>
    refine ⟨b, closer type :: t, hb, by rw [List.append_assoc, List.singleton_append], ?_⟩
    rw [List.append_assoc, List.singleton_append]
    exact hcheck hb (closer_spec type).1 (.inl rfl)
  | cut => exact (hne rfl).elim
  | @comma _ _ _ b s f hb h =>
    refine (hopens ?_).elim
    rw [List.dropWhile_append_of_pos hb]
    rfl
  | @scalar _ stype _ b p cs s n u f hb hname hu h =>
    obtain ⟨c, v, rfl, hc, -⟩ := hu.startsValue
    obtain ⟨d, w, heq, hd, hstart⟩ := hname.begins hc (v ++ (s ++ t))
    have hs : b ++ (p ++ (c :: v ++ s)) ++ t = b ++ d :: w := by
      rw [← heq]
      simp only [List.append_assoc, List.cons_append]
    rw [hs]
    exact ⟨b, _, hb, rfl, hcheck hb hd (.inr hstart)⟩
  | @container _ ctype _ b p inner s n kids f hb hname hctype _ hinner h =>
    obtain ⟨d, w, heq, hd, hstart⟩ := hname.begins (startsValue_opener ctype).1 (inner ++ s ++ t)
    have hs : b ++ (p ++ opener ctype :: (inner ++ s)) ++ t = b ++ d :: w := by
      rw [← heq]
      simp only [List.append_assoc, List.cons_append]
    rw [hs]
    exact ⟨b, _, hb, rfl, hcheck hb hd (.inr hstart)⟩

theorem Items.ne_nil {type : LwjsonType} {free : Bool} {f : Forest (Label R)} (h : Items type true free s f) : s ≠ [] := by
  cases h with
  | close => exact List.append_ne_nil_of_right_ne_nil _ (List.cons_ne_nil _ _)
  | comma => exact List.append_ne_nil_of_right_ne_nil _ (List.cons_ne_nil _ _)
  | scalar hb hname hu h =>
    obtain ⟨c, v, rfl, -⟩ := hu.startsValue
    exact List.append_ne_nil_of_right_ne_nil _ (List.append_ne_nil_of_right_ne_nil _ (List.cons_ne_nil _ _))
  | container => exact List.append_ne_nil_of_right_ne_nil _ (List.append_ne_nil_of_right_ne_nil _ (List.cons_ne_nil _ _))

theorem typeOf_opener {type : LwjsonType} (h : IsContainer type) :
    (if opener type = ch '\x7b' then LwjsonType.object else .array) = type := by
  rcases h with rfl | rfl <;> rfl

theorem run_container {p inner : List UInt8} {n : Option (List UInt8 × Nat)} {type : LwjsonType} {kids : Forest (Label R)}
    (hname : ChildName l.type p n) (htype : IsContainer type) (hopens : Opens inner) (hinner : Items type true true inner kids)
    (hroom : Forest.used ((l, done) :: outer) ≤ cap) (t : List UInt8) :
    ∃ a : Label R, a.trim = ⟨n, type, .zero⟩ ∧ a.type = type ∧
      run cap ((l, done) :: outer) (p ++ opener type :: (inner ++ t)) = run cap ((a, .nil) :: (l, done) :: outer) (inner ++ t) := by
  obtain ⟨hstart, hopen⟩ := startsValue_opener type
  have hbegins : Begins (opener type :: (inner ++ t)) := ⟨_, _, rfl, hstart.not_blank⟩
  obtain ⟨n', hchild, hn⟩ := childName_append hname hbegins
  obtain ⟨b, v, hb, hsplit, hcheck⟩ := checkOpened_items htype hinner hinner.ne_nil hopens t
  have hv : v ≠ [] := by
    rintro rfl
    obtain ⟨w, hskip⟩ : ∃ w, skip 0 (inner ++ t) = some w := by
      rw [checkOpened] at hcheck
      cases hskip : skip 0 (inner ++ t) with
      | none =>
        rw [hskip] at hcheck
        cases hcheck
      | some w => exact ⟨w, rfl⟩
    rw [hsplit, skip_append hb] at hskip
    cases hskip
  refine ⟨⟨n', type, .zero⟩, ?_, rfl, ?_⟩
  · rw [Label.trim, hn]
    rfl
  · rw [hsplit, run_blank hb hv, ← hsplit]
    apply run_element (startsChild hname hstart _) hroom
    rw [element, hchild, Option.bind_some]
    dsimp only
    rw [if_pos hopen, typeOf_opener htype, hcheck]
    rfl

/-- The rounds over the contents of the innermost open node, up to its closing bracket or to the end of the text. -/
def Built (cap : Nat) (type : LwjsonType) (closed : Bool) (s : List UInt8) (f : Forest (Label R)) : Prop :=
  ∀ (l : Label R) (done : Forest (Label R)) (outer : Open R) (t : List UInt8), l.type = type →
    Forest.used ((l, done) :: outer) + f.size ≤ cap + 1 →
    ∃ g : Forest (Label R), g.map Label.trim = f ∧
      run cap ((l, done) :: outer) (s ++ if closed then t else []) =
        run cap ((l, done.append g) :: outer) (if closed then closer type :: t else [])

theorem Items.built {type : LwjsonType} {closed free : Bool} {f : Forest (Label R)} (h : Items type closed free s f) :
    (free = true → Built cap type closed s f) ∧
      (free = false → ∃ b, Blank b ∧ ((closed = true ∧ s = b ++ [closer type] ∧ f = .nil) ∨
        ∃ t, s = b ++ ch ',' :: t ∧ Built cap type closed t f)) := by
  induction h with
  | @close type free b hb =>
    refine ⟨fun _ => ?_, fun _ => ⟨b, hb, .inl ⟨rfl, rfl, rfl⟩⟩⟩
    intro l done outer t hl hroom
    refine ⟨.nil, rfl, ?_⟩
    rw [if_pos rfl, if_pos rfl, List.append_assoc, List.singleton_append, run_blank hb (List.cons_ne_nil _ _), Forest.append_nil]
  | cut =>
    refine ⟨fun _ => ?_, Bool.noConfusion⟩
    intro l done outer t hl hroom
    exact ⟨.nil, rfl, by rw [Forest.append_nil]; rfl⟩
  | @comma type closed free b s f hb _ ih =>
    refine ⟨fun _ => ?_, fun _ => ⟨b, hb, .inr ⟨s, rfl, ih.1 rfl⟩⟩⟩
    intro l done outer t hl hroom
    obtain ⟨g, hg, hrun⟩ := ih.1 rfl l done outer t hl hroom
    refine ⟨g, hg, ?_⟩
    rw [List.append_assoc, List.cons_append, run_blank hb (List.cons_ne_nil _ _), run_comma, hrun]
  | @scalar type stype closed b p cs s n u f hb hname hu _ ih =>
    refine ⟨fun _ => ?_, Bool.noConfusion⟩
    intro l done outer t hl hroom
    subst hl
    have hused : ∀ a : Label R, Forest.used ((l, done.append (.cons a .nil .nil)) :: outer) = Forest.used ((l, done) :: outer) + 1 := by
      intro a
      rw [Forest.used, Forest.used, Forest.size_append]
      rfl
    rw [Forest.size, Forest.size] at hroom
    have hcap : Forest.used ((l, done) :: outer) ≤ cap := by omega
    obtain ⟨b', hb', ⟨rfl, rfl, rfl⟩ | ⟨s, rfl, hbuilt⟩⟩ := ih.2 rfl
    · obtain ⟨a, ha, hrun⟩ := run_scalar hname hu hb' (.inr (closer_cases l.type).symm) hcap t
      refine ⟨.cons a .nil .nil, by rw [Forest.map, ha]; rfl, ?_⟩
      have htext : b ++ (p ++ (cs ++ (b' ++ [closer l.type]))) ++ t = b ++ (p ++ (cs ++ (b' ++ closer l.type :: t))) := by
        simp only [List.append_assoc, List.singleton_append]
      rw [if_pos rfl, if_pos rfl, htext, run_blank hb (by simp), hrun, if_neg (closer_spec l.type).2]
    · obtain ⟨a, ha, hrun⟩ := run_scalar hname hu hb' (.inl rfl) hcap (s ++ if closed then t else [])
      obtain ⟨g, hg, hrest⟩ := hbuilt l (done.append (.cons a .nil .nil)) outer t rfl (by rw [hused]; omega)
      refine ⟨.cons a .nil g, by rw [Forest.map, ha, hg]; rfl, ?_⟩
      have htext : b ++ (p ++ (cs ++ (b' ++ ch ',' :: s))) ++ (if closed then t else []) =
          b ++ (p ++ (cs ++ (b' ++ ch ',' :: (s ++ if closed then t else [])))) := by
        simp only [List.append_assoc, List.cons_append]
      rw [htext, run_blank hb (by simp), hrun, if_pos rfl, hrest, Forest.append_assoc]
      rfl
  | @container type ctype closed b p inner s n kids f hb hname htype hopens hinner _ ihinner ih =>
    refine ⟨fun _ => ?_, Bool.noConfusion⟩
    intro l done outer t hl hroom
    subst hl
    rw [Forest.size] at hroom
    have hcap : Forest.used ((l, done) :: outer) ≤ cap := by omega
    obtain ⟨a, ha, hatype, hrun⟩ := run_container hname htype hopens hinner hcap (s ++ if closed then t else [])
    obtain ⟨g₁, hg₁, hrun₁⟩ := ihinner.1 rfl a .nil ((l, done) :: outer) (s ++ if closed then t else []) hatype (by
      rw [Forest.used, Forest.size]
      omega)
    obtain ⟨g₂, hg₂, hrun₂⟩ := ih.1 rfl l (done.append (.cons a g₁ .nil)) outer t rfl (by
      rw [← hg₁, Forest.size_map, Forest.used] at hroom
      rw [Forest.used, Forest.size_append, Forest.size, Forest.size]
      omega)
    refine ⟨.cons a g₁ g₂, by rw [Forest.map, ha, hg₁, hg₂], ?_⟩
    have htext : b ++ (p ++ opener ctype :: (inner ++ s)) ++ (if closed then t else []) =
        b ++ (p ++ opener ctype :: (inner ++ (s ++ if closed then t else []))) := by
      simp only [List.append_assoc, List.cons_append]
    rw [if_pos rfl, if_pos rfl, ← hatype, Forest.append] at hrun₁
    rw [htext, run_blank hb (by simp), hrun, hrun₁, run_close]
    show run cap ((l, done.append (.cons a g₁ .nil)) :: outer) (s ++ if closed then t else []) = _
    rw [hrun₂, Forest.append_assoc]
    rfl

/-- The text after the opening bracket of the first token. -/
theorem parseText_opener {b : List UInt8} {type : LwjsonType} (hb : Blank b) (htype : IsContainer type) {b' v : List UInt8}
    (hb' : Blank b') (hs : s = b' ++ v) (hv : v ≠ []) (hcheck : checkOpened 0 s type = some v) :
    parseText (R := R) 0 cap (b ++ opener type :: s) = run cap [(⟨none, type, .zero⟩, .nil)] s := by
  obtain ⟨hstart, hopen⟩ := startsValue_opener type
  have hlength : v.length < (b ++ opener type :: s).length + 1 := by
    rw [hs]
    simp only [List.length_append, List.length_cons]
    omega
  rw [parseText, skip_append hb, skip_begins ⟨_, _, rfl, hstart.not_blank⟩]
  dsimp only
  rw [if_pos hopen, typeOf_opener htype, hcheck]
  dsimp only
  rw [hs, run_blank hb' hv, ← hs, run]
  exact rounds_fuel hlength (Nat.lt_succ_self _)

private theorem ne_nil_of_checkOpened {out : Nat} {type : LwjsonType} (h : checkOpened out s type = some t) : t ≠ [] := by
  rw [checkOpened] at h
  split at h
  · split at h
    · cases h
    · cases h
      exact List.cons_ne_nil _ _
  · cases h

omit [LwReal R] in
theorem used_root {f : Forest (Label R)} (l : Label R) (h : f.size ≤ cap) : Forest.used [(l, .nil)] + f.size ≤ cap + 1 := by
  rw [Forest.used, Forest.used, Forest.size]
  omega

/-- A text of the language has its tree where there is room for it. -/
theorem Document.parseText_eq {tree : Tree R} (h : Document s tree) (hroom : tree.2.size ≤ cap) :
    ∃ tree', parseText 0 cap s = .ok tree' ∧ trimTree tree' = tree := by
  cases h with
  | @closed type b b' s f hb hb' htype hopens h =>
    obtain ⟨b₀, v, hb₀, hsplit, hcheck⟩ := checkOpened_items htype h h.ne_nil hopens b'
    obtain ⟨g, hg, hrun⟩ := h.built.1 rfl ⟨none, type, .zero⟩ .nil [] b' rfl (used_root _ hroom)
    rw [if_pos rfl, if_pos rfl] at hrun
    rw [parseText_opener hb htype hb₀ hsplit (ne_nil_of_checkOpened hcheck) hcheck, hrun, run_close_root hb']
    exact ⟨_, rfl, Prod.ext rfl hg⟩
  | @cut type b s f hb htype hne hopens h =>
    obtain ⟨b₀, v, hb₀, hsplit, hcheck⟩ := checkOpened_items htype h hne hopens []
    obtain ⟨g, hg, hrun⟩ := h.built.1 rfl ⟨none, type, .zero⟩ .nil [] [] rfl (used_root _ hroom)
    rw [List.append_nil] at hsplit hcheck
    rw [if_neg Bool.false_ne_true, if_neg Bool.false_ne_true, List.append_nil, run_nil] at hrun
    rw [parseText_opener hb htype hb₀ hsplit (ne_nil_of_checkOpened hcheck) hcheck, hrun]
    exact ⟨_, rfl, Prod.ext rfl hg⟩

end Vedruino.Lwjson
